import RiscvAssembler.Proofs.Session.Expansions
import RiscvAssembler.Proofs.Session.Labels

/-!
How statements are rejected. An instruction that is rejected without an end to the session has placed
nothing: a reference could not be replaced, no template took the operands, there was no expansion, or
a symbol that is made up was taken (`rejects_of_run`). What was done before that stays (`Residue`).
-/

namespace RiscvAssembler

theorem Labels.eq_of_resolveTokens_error {l : Labels} {tokens : List (List Char)} {e : Error}
    (h : (l.resolveTokens tokens).2 = .error e) : ∃ name, e = .undefinedLocalLabel name := by
  induction tokens generalizing l with
  | nil => cases h
  | cons token tokens ih =>
    unfold resolveTokens at h
    cases htoken : l.resolveToken token with
    | error e' =>
      rw [htoken] at h
      cases h
      unfold resolveToken at htoken
      split at htoken
      · cases htoken
      · split at htoken
        · cases htoken
          exact ⟨_, rfl⟩
        · cases htoken
      · cases htoken
    | ok pair =>
      rw [htoken] at h
      dsimp only at h
      cases hrest : (pair.1.resolveTokens tokens).2 with
      | error e' =>
        rw [hrest] at h
        cases h
        exact ih hrest
      | ok more =>
        rw [hrest] at h
        cases h

namespace Session

/-! ### How an instruction is rejected -/

/-- The session when an instruction is encoded: its references are noted, and a dot has a symbol. -/
inductive Named (s : Session) (tokens : List (List Char)) : Session → Prop where
  | plain : Named s tokens (s.begun (s.labels.noting tokens))
  | dot (free : s.contents.defines (Label.dotSymbol s.labels.nextDot) = false) :
    Named s tokens ((s.begun (s.labels.noting tokens)).withDotUsed.withSymbol
      (Label.dotSymbol s.labels.nextDot))

open Expansion in
/-- How an instruction with some operands is rejected without an end to the session, and what it
leaves. -/
inductive Rejects (s : Session) (tokens : List (List Char)) : Error → Session → Prop where
  /-- The type of an instruction given field by field is missing. -/
  | untyped (d : DirectiveError) : Rejects s tokens (.directive d) s
  /-- A reference cannot be replaced, or no template takes the operands. -/
  | unencoded {done rest : List (List Char)} {e : Error} (split : tokens = done ++ rest)
    (other : ∀ name, e ≠ .duplicateSymbol name) :
    Rejects s tokens e (s.begun (s.labels.noting done))
  /-- The symbol for a dot is taken. -/
  | dotTaken : Rejects s tokens (.duplicateSymbol (Label.dotSymbol s.labels.nextDot))
    (s.begun (s.labels.noting tokens)).withDotUsed
  /-- There is no expansion. -/
  | unexpanded {cause : InstructionError} {s₁ : Session} (named : Named s tokens s₁) :
    Rejects s tokens (.instruction cause) s₁
  /-- The label for the upper part of an address is taken. -/
  | upperTaken {s₁ : Session} (named : Named s tokens s₁) :
    Rejects s tokens (.duplicateSymbol (upperLabel s.labels.nextUpper))
      (s₁.withUpper (s.labels.nextUpper + 1))

section

variable {s s' : Session} {er : Error}

theorem endsSession_of_place {e : Encoded} (h : place e s = .error er s') :
    er.endsSession = true := by
  cases hitem : e.item? s.options.relax with
  | none =>
    obtain ⟨er', hends, hplace⟩ := place_of_item?_eq_none hitem
    cases hplace.symm.trans h
    exact hends
  | some item =>
    obtain ⟨placed, hplace⟩ := place_of_item? hitem
    cases hplace.symm.trans h

theorem endsSession_of_insns {pseudo : String} {steps : List Step}
    (hsteps : ∀ step ∈ steps, ∃ mnemonic operands reloc, step = .insn mnemonic operands reloc)
    (h : runSteps pseudo steps s = .error er s') : er.endsSession = true := by
  induction steps generalizing s with
  | nil => cases h
  | cons step steps ih =>
    obtain ⟨⟨mnemonic, operands, reloc, rfl⟩, hrest⟩ := List.forall_mem_cons.1 hsteps
    rw [runSteps, run_bind_eq_error_iff] at h
    rcases h with h | ⟨here, s₁, -, h⟩
    · obtain ⟨er', hends, hrun⟩ | ⟨e, item, placed, -, -, hrun⟩ :=
        runStep_insn_cases pseudo mnemonic operands reloc s
      · cases hrun.symm.trans h
        exact hends
      · cases hrun.symm.trans h
    · rw [run_bind_eq_error_iff] at h
      rcases h with h | ⟨more, s₂, -, h⟩
      · exact ih hrest h
      · cases h

open Expansion in
/-- An expansion is rejected before its first step, or because its label is taken. -/
theorem expand_eq_error {kind : PseudoKind} {e : Encoded} (h : expand kind e s = .error er s')
    (her : er.endsSession = false) :
    (∃ cause, er = .instruction cause ∧ s' = s) ∨
      er = .duplicateSymbol (upperLabel s.labels.nextUpper) ∧
        s' = s.withUpper (s.labels.nextUpper + 1) := by
  rw [expand_eq] at h
  cases hexpand : kind.expand e s.isa.xlen s.options.pic s.labels.nextUpper with
  | error cause =>
    rw [hexpand] at h
    cases h
    exact .inl ⟨cause, rfl, rfl⟩
  | ok outcome =>
    obtain ⟨steps, next⟩ := outcome
    rw [hexpand] at h
    dsimp only at h
    have hinsns : (∀ step ∈ steps, ∃ mnemonic operands reloc,
        step = .insn mnemonic operands reloc) → False := by
      intro hsteps
      rw [endsSession_of_insns hsteps h] at her
      cases her
    obtain ⟨imm, -, hforms⟩ := PseudoKind.forms_of_expand hexpand
    cases hforms with
    | constant =>
      refine (hinsns ?_).elim
      intro step hstep
      obtain ⟨c, -, rfl⟩ := List.mem_map.1 hstep
      exact ⟨_, _, _, rfl⟩
    | parts =>
      rw [throughUpper, runSteps, run_bind_eq_error_iff, runStep_label] at h
      rcases h with h | ⟨here, s₁, -, h⟩
      · split at h
        · cases h
          exact .inr ⟨rfl, rfl⟩
        · cases h
      · rw [run_bind_eq_error_iff] at h
        rcases h with h | ⟨more, s₂, -, h⟩
        · have hends := endsSession_of_insns (by simp) h
          rw [hends] at her
          cases her
        · cases h
    | call => exact (hinsns (by simp)).elim

theorem rejects_of_encodeIn {catalog : Catalogs → Catalog} {mnemonic : String}
    {operands : List Char} (h : encodeIn catalog mnemonic operands s = .error er s') :
    Rejects s (Labels.tokens operands) er s' := by
  obtain ⟨done, rest, hsplit, hdone, hrest⟩ :=
    s.labels.resolveTokens_fst (Labels.tokens operands)
  rw [encodeIn_eq] at h
  cases hresolve : s.labels.resolve operands with
  | mk labels resolved =>
    have hlabels : labels = s.labels.noting done := by
      rw [← hdone]
      exact (congrArg Prod.fst hresolve).symm
    rw [hresolve] at h
    cases resolved with
    | error e =>
      cases h
      obtain ⟨name, rfl⟩ := Labels.eq_of_resolveTokens_error (congrArg Prod.snd hresolve)
      rw [hlabels]
      exact .unencoded hsplit fun name' h => by cases h
    | ok text =>
      rw [hrest text (congrArg Prod.snd hresolve), List.append_nil] at hsplit
      subst hsplit
      dsimp only at h
      cases hencode : (catalog s.catalogs).encode (s.context true) mnemonic text with
      | error cause =>
        rw [hencode] at h
        cases h
        rw [hlabels]
        exact .unencoded (List.append_nil _).symm fun name' h => by cases h
      | ok e =>
        rw [hencode, hlabels] at h
        dsimp only at h
        rw [nameDot_eq] at h
        cases hdot : e.dotAddend? with
        | none =>
          rw [hdot] at h
          cases h
        | some addend =>
          rw [hdot] at h
          dsimp only at h
          split at h
          · cases h
            exact .dotTaken
          · cases h

theorem named_of_encodeIn {catalog : Catalogs → Catalog} {mnemonic : String}
    {operands : List Char} {e : Encoded} (h : encodeIn catalog mnemonic operands s = .ok e s') :
    Named s (Labels.tokens operands) s' := by
  obtain ⟨labels, text, e₀, hresolve, -, hnamed⟩ := exists_of_encodeIn h
  have hlabels : labels = s.labels.noting (Labels.tokens operands) := by
    rw [Labels.resolve_of_ok (congrArg Prod.snd hresolve)] at hresolve
    exact (congrArg Prod.fst hresolve).symm
  rw [hlabels] at hnamed
  obtain ⟨-, ⟨-, rfl⟩ | ⟨-, hfree, rfl⟩⟩ := eq_of_nameDot hnamed
  · exact .plain
  · exact .dot hfree

theorem Named.nextUpper {tokens : List (List Char)} (h : Named s tokens s') :
    s'.labels.nextUpper = s.labels.nextUpper := by
  cases h <;> rfl

/-- **How instructions are rejected.** -/
theorem rejects_of_run {w : Written} (h : w.run s = .error er s') (her : er.endsSession = false) :
    Rejects s (Labels.tokens w.operands) er s' := by
  rcases w.run_cases s with hrun | hrun
  · rw [hrun, run_bind_eq_error_iff] at h
    rcases h with h | ⟨e, s₁, hencode, h⟩
    · exact rejects_of_encodeIn h
    · have hnamed := named_of_encodeIn hencode
      have hplace : (do return [← place e] : AssemblerM (List Placed)) s₁ ≠ .error er s' := by
        intro h
        rcases run_bind_eq_error_iff.1 h with h | ⟨placed, s₂, -, h⟩
        · rw [endsSession_of_place h] at her
          cases her
        · cases h
      cases w with
      | fields text =>
        unfold Written.assemble at h
        cases hpseudo : e.template.pseudo <;> exact absurd (by simpa [hpseudo] using h) hplace
      | instruction mnemonic operands =>
        unfold Written.assemble at h
        cases hpseudo : e.template.pseudo with
        | none =>
          rw [hpseudo] at h
          exact absurd h hplace
        | some kind =>
          rw [hpseudo] at h
          obtain ⟨cause, rfl, rfl⟩ | ⟨rfl, rfl⟩ := expand_eq_error h her
          · exact .unexpanded hnamed
          · rw [hnamed.nextUpper]
            exact .upperTaken hnamed
  · cases hrun.symm.trans h
    exact .untyped _

end

/-- What a rejected statement leaves: nothing placed, no numeric label counted and no setting changed;
but that an instruction was given, references from the front of its operands, a symbol for a dot, and
the numbers of such symbols and of labels for upper parts. -/
structure Residue (tokens : List (List Char)) (s s' : Session) : Prop where
  frame : s' = { s with
    started := s'.started
    contents := { s.contents with symbols := s'.contents.symbols }
    labels := { s.labels with
      pending := s'.labels.pending
      nextDot := s'.labels.nextDot
      nextUpper := s'.labels.nextUpper } }
  pending : ∃ done rest, tokens = done ++ rest ∧
    s'.labels.pending = s.labels.pending ++ (done.filterMap s.labels.forward?).toArray
  symbols : s'.contents.symbols = s.contents.symbols ∨
    s'.labels.nextDot = s.labels.nextDot + 1 ∧ s'.contents.symbols =
      s.contents.symbols.insert (Label.dotSymbol s.labels.nextDot) s.contents.items.size

section

variable {s s' : Session} {tokens : List (List Char)} {er : Error}

theorem Residue.refl (tokens : List (List Char)) (s : Session) : Residue tokens s s :=
  ⟨rfl, ⟨[], tokens, rfl, by simp⟩, .inl rfl⟩

theorem Named.residue (h : Named s tokens s') : Residue tokens s s' := by
  cases h with
  | plain => exact ⟨rfl, ⟨tokens, [], (List.append_nil _).symm, rfl⟩, .inl rfl⟩
  | dot free => exact ⟨rfl, ⟨tokens, [], (List.append_nil _).symm, rfl⟩, .inr ⟨rfl, rfl⟩⟩

theorem Rejects.residue (h : Rejects s tokens er s') : Residue tokens s s' := by
  cases h with
  | untyped d => exact .refl tokens s
  | @unencoded done rest _ split other => exact ⟨rfl, ⟨done, rest, split, rfl⟩, .inl rfl⟩
  | dotTaken => exact ⟨rfl, ⟨tokens, [], (List.append_nil _).symm, rfl⟩, .inl rfl⟩
  | unexpanded named => exact named.residue
  | upperTaken named =>
    cases named with
    | plain => exact ⟨rfl, ⟨tokens, [], (List.append_nil _).symm, rfl⟩, .inl rfl⟩
    | dot free => exact ⟨rfl, ⟨tokens, [], (List.append_nil _).symm, rfl⟩, .inr ⟨rfl, rfl⟩⟩

/-- A symbol that is taken is the one for the next dot or for the next upper part. -/
theorem Rejects.name_of_duplicateSymbol {name : String}
    (h : Rejects s tokens (.duplicateSymbol name) s') :
    name = Label.dotSymbol s.labels.nextDot ∨ name = Expansion.upperLabel s.labels.nextUpper := by
  cases h with
  | unencoded split other => exact absurd rfl (other name)
  | dotTaken => exact .inl rfl
  | upperTaken named => exact .inr rfl

/-- The number of the next dot changes only if its symbol is taken, or is defined. -/
theorem Rejects.dot (h : Rejects s tokens er s') (hne : s'.labels.nextDot ≠ s.labels.nextDot) :
    s'.labels.nextDot = s.labels.nextDot + 1 ∧
      (er = .duplicateSymbol (Label.dotSymbol s.labels.nextDot) ∨
        s.contents.defines (Label.dotSymbol s.labels.nextDot) = false ∧
          s'.contents.defines (Label.dotSymbol s.labels.nextDot) = true) := by
  have hnamed : ∀ {s₁}, Named s tokens s₁ → s₁.labels.nextDot ≠ s.labels.nextDot →
      s₁.labels.nextDot = s.labels.nextDot + 1 ∧
        s.contents.defines (Label.dotSymbol s.labels.nextDot) = false ∧
        s₁.contents.defines (Label.dotSymbol s.labels.nextDot) = true := by
    intro s₁ hs₁ hne
    cases hs₁ with
    | plain => exact absurd rfl hne
    | dot free => exact ⟨rfl, free, by simp [Section.defines, withSymbol]⟩
  cases h with
  | untyped d => exact absurd rfl hne
  | unencoded split other => exact absurd rfl hne
  | dotTaken => exact ⟨rfl, .inl rfl⟩
  | unexpanded named => exact ⟨(hnamed named hne).1, .inr (hnamed named hne).2⟩
  | upperTaken named => exact ⟨(hnamed named hne).1, .inr (hnamed named hne).2⟩

theorem Rejects.upper (h : Rejects s tokens er s')
    (hne : s'.labels.nextUpper ≠ s.labels.nextUpper) :
    s'.labels.nextUpper = s.labels.nextUpper + 1 ∧
      er = .duplicateSymbol (Expansion.upperLabel s.labels.nextUpper) := by
  cases h with
  | untyped d => exact absurd rfl hne
  | unencoded split other => exact absurd rfl hne
  | dotTaken => exact absurd rfl hne
  | unexpanded named => exact absurd named.nextUpper hne
  | upperTaken named => exact ⟨rfl, rfl⟩

end

end Session

end RiscvAssembler
