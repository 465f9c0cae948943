import RiscvAssembler.Proofs.Session.Inert

/-!
The settings of a session: all but what was assembled and the labels. Instructions and labels leave
them alone (`keeps_written`, `keeps_forM_addLabel`), and a directive that is refused leaves everything
alone. As a rejected instruction has placed nothing, no request that is refused without an end to the
session changes a setting or an item.
-/

namespace RiscvAssembler

namespace Session

/-- All of a session but what was assembled and the labels. -/
structure Settings where
  catalogs : Catalogs
  config : Config
  evaluator : Evaluator
  /-- The register width and the list of subsets. -/
  isa : Isa
  options : Options
  saved : List Options
  archGiven : Bool
  compressedSeen : Bool

/-- The settings of a session. -/
def settings (s : Session) : Settings :=
  { catalogs := s.catalogs, config := s.config, evaluator := s.evaluator, isa := s.isa,
    options := s.options, saved := s.saved, archGiven := s.archGiven,
    compressedSeen := s.compressedSeen }

/-! ### Instructions and labels -/

/-- A property that the section and the labels have no part in, and that holds on once an instruction
is given. -/
structure Steady (I : Session → Prop) : Prop where
  contents : ∀ s contents, I s → I { s with contents := contents }
  labels : ∀ s labels, I s → I { s with labels := labels }
  started : ∀ s, I s → I { s with started := true }

/-- A computation that keeps every steady property, whether it succeeds or not. -/
def Spares {α : Type} (x : AssemblerM α) : Prop :=
  ∀ I : Session → Prop, Steady I → Yields I (fun _ => True) x fun _ => True

/-- A computation that leaves the settings alone, whether it succeeds or not. -/
def Keeps {α : Type} (x : AssemblerM α) : Prop :=
  ∀ S : Settings, Yields (fun s => s.settings = S) (fun _ => True) x fun _ => True

theorem Spares.keeps {α : Type} {x : AssemblerM α} (h : Spares x) : Keeps x :=
  fun _ => h _ ⟨fun _ _ h => h, fun _ _ h => h, fun _ h => h⟩

theorem Keeps.leftBy {α : Type} {x : AssemblerM α} (h : Keeps x) (s : Session) :
    (leftBy x s).settings = s.settings :=
  Yields.leftBy (h s.settings) rfl

theorem spares_addSymbol (name : String) : Spares (addSymbol name) := by
  refine fun I hI => yields_update (fun s s' hs h => ?_) fun _ _ _ _ => trivial
  unfold Section.define at h
  split at h
  · cases h
  · cases h
    exact hI.contents s _ hs

theorem spares_addLabel (label : Label) : Spares (addLabel label) := by
  intro I hI
  cases label with
  | named name => exact spares_addSymbol name I hI
  | numbered n =>
    refine (yields_modifyGet (Q := fun _ => True) fun s hs => ⟨?_, trivial⟩).bind
      fun name _ => spares_addSymbol name I hI
    exact hI.labels s _ hs

theorem spares_forM_addLabel (labels : List Label) : Spares (labels.forM addLabel) :=
  fun I hI => yields_forM fun label _ => spares_addLabel label I hI

theorem keeps_forM_addLabel (labels : List Label) : Keeps (labels.forM addLabel) :=
  (spares_forM_addLabel labels).keeps

theorem spares_nameDot (e : Encoded) : Spares (nameDot e) := by
  intro I hI
  unfold nameDot
  split
  · split
    · refine (yields_modifyGet (Q := fun _ => True) fun s hs => ⟨?_, trivial⟩).bind fun dot _ =>
        (spares_addSymbol dot I hI).bind fun _ _ => yields_pure trivial
      exact hI.labels s _ hs
    · exact yields_pure trivial
  · exact yields_pure trivial

theorem spares_resolveReferences (operands : List Char) : Spares (resolveReferences operands) := by
  intro I hI
  refine (yields_modifyGet (Q := fun _ => True) fun s hs => ⟨?_, trivial⟩).bind fun outcome _ => ?_
  · exact hI.labels s _ hs
  · cases outcome with
    | ok text => exact yields_pure trivial
    | error e => exact yields_throw trivial

theorem spares_encodeIn (catalog : Catalogs → Catalog) (mnemonic : String) (operands : List Char) :
    Spares (encodeIn catalog mnemonic operands) := by
  intro I hI
  refine (yields_modify fun s hs => hI.started s hs).bind fun _ _ =>
    (spares_resolveReferences operands I hI).bind fun text _ => yields_get.bind fun s _ => ?_
  split
  · exact yields_throw trivial
  · exact spares_nameDot _ I hI

theorem spares_place (e : Encoded) : Spares (place e) := by
  refine fun I hI => yields_get.bind fun _ _ => yields_get.bind fun s _ => ?_
  split
  · refine (yields_modify fun s hs => ?_).bind fun _ _ => yields_pure trivial
    exact hI.contents s _ hs
  · split
    · refine (yields_update (fun s s' hs h => ?_) fun _ _ _ _ => trivial).bind
        fun _ _ => yields_pure trivial
      unfold Section.appendBranch at h
      split at h
      · cases h
        exact hI.contents s _ hs
      · cases h
      · cases h
    · refine (yields_modify fun s hs => ?_).bind fun _ _ => yields_pure trivial
      exact hI.contents s _ hs
  · exact yields_throw trivial

theorem spares_runSteps (pseudo : String) (steps : List Step) : Spares (runSteps pseudo steps) := by
  intro I hI
  have hstep : ∀ step, Spares (runStep pseudo step) := by
    intro step I hI
    cases step with
    | label name => exact (spares_addSymbol name I hI).bind fun _ _ => yields_pure trivial
    | insn mnemonic operands reloc =>
      refine yields_get.bind fun s _ => ?_
      split
      · exact yields_throw trivial
      · exact (spares_place _ I hI).bind fun _ _ => yields_pure trivial
  induction steps with
  | nil => exact yields_pure trivial
  | cons step steps ih =>
    exact (hstep step I hI).bind fun _ _ => ih.bind fun _ _ => yields_pure trivial

theorem spares_expand (kind : PseudoKind) (e : Encoded) : Spares (expand kind e) := by
  refine fun I hI => yields_get.bind fun s _ => ?_
  split
  · exact yields_throw trivial
  · refine (yields_modify fun s hs => ?_).bind fun _ _ => spares_runSteps _ _ I hI
    exact hI.labels s _ hs

theorem spares_assemble (w : Written) (e : Encoded) : Spares (w.assemble e) := by
  intro I hI
  unfold Written.assemble
  split
  · exact spares_expand _ e I hI
  · exact (spares_place e I hI).bind fun _ _ => yields_pure trivial

theorem spares_encodeIn_assemble (w : Written) :
    Spares (encodeIn w.catalog w.mnemonic w.operands >>= w.assemble) :=
  fun I hI => (spares_encodeIn _ _ _ I hI).bind fun e _ => spares_assemble w e I hI

theorem spares_written (w : Written) : Spares w.run := by
  intro I hI s hs
  rcases w.run_cases s with hrun | hrun
  · rw [hrun]
    exact spares_encodeIn_assemble w I hI s hs
  · rw [hrun]
    exact ⟨hs, trivial⟩

/-- **An instruction leaves the settings alone.** -/
theorem keeps_written (w : Written) : Keeps w.run :=
  (spares_written w).keeps

/-! ### Refusals -/

/-- The error that a request was refused with. A block is not refused: it reports the errors of its
lines. -/
def Answer.refusal? : Answer → Option Error
  | .done (.error e) => some e
  | .placed (.error e) => some e
  | _ => none

theorem Answer.refusal?_done {o : Except Error Unit} {er : Error} :
    (Answer.done o).refusal? = some er ↔ o = .error er := by
  cases o <;> simp [refusal?]

theorem Answer.refusal?_placed {o : Except Error (List Placed)} {er : Error} :
    (Answer.placed o).refusal? = some er ↔ o = .error er := by
  cases o <;> simp [refusal?]

/-- A session with the settings and the items of another: the bytes, relocations and branches of its
section are the same. -/
structure Intact (s s' : Session) : Prop where
  settings : s'.settings = s.settings
  items : s'.contents.items = s.contents.items

section

variable {s s' : Session} {er : Error}

theorem Intact.refl (s : Session) : Intact s s :=
  ⟨rfl, rfl⟩

theorem Intact.trans {s'' : Session} (h : Intact s s') (h' : Intact s' s'') : Intact s s'' :=
  ⟨h'.settings.trans h.settings, h'.items.trans h.items⟩

theorem leftBy_of_outcome {α : Type} {x : AssemblerM α} (h : outcome x s = .error er) :
    x s = .error er (leftBy x s) := by
  unfold outcome at h
  unfold leftBy
  cases hx : x s with
  | ok a s' =>
    rw [hx] at h
    cases h
  | error e s' =>
    rw [hx] at h
    cases h
    rfl

theorem intact_update {f : Session → Except Error Session}
    (h : outcome (update f) s = .error er) : Intact s (leftBy (update f) s) := by
  have hrun := leftBy_of_outcome h
  rw [update_eq] at hrun
  split at hrun
  · cases hrun
  · have hsame : s = leftBy (update f) s := (EStateM.Result.error.inj hrun).2
    rw [← hsame]
    exact .refl s

theorem intact_forM_addLabel (labels : List Label) (s : Session) :
    Intact s (leftBy (labels.forM addLabel) s) :=
  ⟨(keeps_forM_addLabel labels).leftBy s, (idles_forM_addLabel labels s).same⟩

/-- A rejected instruction has placed nothing. -/
theorem intact_of_run {w : Written} (h : w.run s = .error er s') (her : er.endsSession = false) :
    Intact s s' := by
  have hresidue := (rejects_of_run h her).residue
  refine ⟨?_, by rw [hresidue.frame]⟩
  rw [← leftBy_of_error h]
  exact (keeps_written w).leftBy s

theorem intact_of_statement {st : Statement} (h : statement st s = .error er s')
    (her : er.endsSession = false) : Intact s s' := by
  cases hwritten : written? st with
  | none => exact eq_of_statement hwritten h ▸ .refl s
  | some w => exact intact_of_run ((run_of_statement_error hwritten).1 h) her

/-- A rejected line is rejected for one of its labels, or for its statement once they are defined. -/
theorem intact_of_line {text : List Char} (h : line text s = .error er s')
    (her : er.endsSession = false) : Intact s s' := by
  have hlabels := intact_forM_addLabel (Line.read text).labels s
  rcases run_bind_eq_error_iff.1 h with h | ⟨_, s₁, hdone, h⟩
  · rwa [leftBy_of_error h] at hlabels
  · rw [leftBy_of_ok hdone] at hlabels
    exact hlabels.trans (intact_of_statement h her)

/-- **A request that is refused emits nothing and changes no setting**, unless its error ends the
session. -/
theorem refused_request_emits_nothing (request : Request) (s : Session) {er : Error}
    (h : (request.answer s).refusal? = some er) (her : er.endsSession = false) :
    (request.run s).settings = s.settings ∧
      (request.run s).contents.items = s.contents.items := by
  have hintact : Intact s (request.run s) := by
    cases request with
    | useEvaluator ev => cases h
    | useIsa arch => exact intact_update (Answer.refusal?_done.1 h)
    | declareArch arch => exact intact_update (Answer.refusal?_done.1 h)
    | option name => exact intact_update (Answer.refusal?_done.1 h)
    | instruction mnemonic operands =>
      have hrun := leftBy_of_outcome (Answer.refusal?_placed.1 h)
      exact intact_of_run (w := .instruction mnemonic operands) hrun her
    | fields text =>
      have hrun := leftBy_of_outcome (Answer.refusal?_placed.1 h)
      exact intact_of_run (w := .fields text) hrun her
    | line text => exact intact_of_line (leftBy_of_outcome (Answer.refusal?_done.1 h)) her
    | block text => cases h
  exact ⟨hintact.settings, hintact.items⟩

end

/-- A line whose label is defined and whose reference is noted before its mnemonic turns out to be
unknown. -/
theorem refused_labelled_line_emits_nothing :
    ∃ cs er, Catalogs.standard = .ok cs ∧
      ((Request.line "a: frob 1f".toList).answer (generalStart cs)).refusal? = some er ∧
      er.endsSession = false ∧
      ((Request.line "a: frob 1f".toList).run (generalStart cs)).settings =
        (generalStart cs).settings ∧
      ((Request.line "a: frob 1f".toList).run (generalStart cs)).contents.items =
        (generalStart cs).contents.items := by
  obtain ⟨cs, hcs⟩ := Catalogs.exists_standard
  have hread : Line.read "a: frob 1f".toList = ⟨[.named "a"], .instruction "frob" "1f".toList⟩ := by
    decide +kernel
  have hrest : Line.read "frob 1f".toList = ⟨[], .instruction "frob" "1f".toList⟩ := by
    decide +kernel
  have hresolve : (Labels.empty.resolve "1f".toList).2.toOption = some ".Llocal1_0".toList := by
    decide +kernel
  obtain ⟨er, her, hline⟩ := line_of_unknown hcs (s := labelled cs) rfl hrest
    (eq_ok_of_toOption hresolve)
  have hrefused : ((Request.line "a: frob 1f".toList).answer (generalStart cs)).refusal? =
      some er := by
    refine Answer.refusal?_done.2 ?_
    rw [line_of_no_label (by rw [hrest]), hrest] at hline
    unfold outcome line
    rw [hread, run_bind_eq_error_iff.2 (.inr ⟨_, _, forM_addLabel cs, hline⟩)]
  exact ⟨cs, er, hcs, hrefused, her, refused_request_emits_nothing _ _ hrefused her⟩

end Session

end RiscvAssembler
