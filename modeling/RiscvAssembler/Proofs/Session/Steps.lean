import RiscvAssembler.Proofs.Session.Lines
import RiscvAssembler.Proofs.Session.Reachable

/-!
Steps of a session, run. Each step has an equation that says what it returns and which session it
leaves: a symbol is defined or refused (`addSymbol_eq`), a dot is named (`nameDot_eq`), references
are replaced and an instruction is encoded (`encodeIn_eq`), and what is placed becomes an item
(`place_of_item?`).
-/

namespace RiscvAssembler

/-- What is added to a dot, if the instruction is left with one. -/
def Encoded.dotAddend? (e : Encoded) : Option Int64 :=
  match e.imm with
  | some (.symbol name addend) => if name = "." then some addend else none
  | _ => none

/-- An encoded instruction with its dot replaced by the symbol of dot `n`. -/
def Encoded.named (e : Encoded) (n : Nat) : Encoded :=
  match e.dotAddend? with
  | none => e
  | some addend => { e with imm := some (.symbol (Label.dotSymbol n) addend) }

section

variable (e : Encoded) (n : Nat)

@[simp] theorem Encoded.template_named : (e.named n).template = e.template := by
  unfold named
  split <;> rfl

@[simp] theorem Encoded.bits_named : (e.named n).bits = e.bits := by
  unfold named
  split <;> rfl

@[simp] theorem Encoded.reloc_named : (e.named n).reloc = e.reloc := by
  unfold named
  split <;> rfl

end

/-- The item that an encoded instruction is placed as. -/
def Encoded.item? (e : Encoded) (relax : Bool) : Option Item :=
  match e.reloc, e.imm with
  | none, _ => some (.data e.toBytes none)
  | some kind, some (.symbol name addend) =>
    match BranchKind.ofReloc? kind with
    | some k => some (.branch (.new k e.bits name addend) relax)
    | none => some (.data e.toBytes (some ⟨kind, .symbol name addend, kind.mayRelax relax⟩))
  | some _, _ => none

namespace Session

section

variable {α β : Type} {x : AssemblerM α} {f : α → AssemblerM β} {s s' : Session}

theorem run_bind_eq : (x >>= f) s =
    match x s with
    | .ok a s₁ => f a s₁
    | .error e s₁ => .error e s₁ := by
  change EStateM.bind x f s = _
  unfold EStateM.bind
  cases x s <;> rfl

theorem run_bind_eq_ok_iff {b : β} :
    (x >>= f) s = .ok b s' ↔ ∃ a s₁, x s = .ok a s₁ ∧ f a s₁ = .ok b s' := by
  rw [run_bind_eq]
  cases x s <;> simp

theorem run_bind_eq_error_iff {e : Error} :
    (x >>= f) s = .error e s' ↔
      x s = .error e s' ∨ ∃ a s₁, x s = .ok a s₁ ∧ f a s₁ = .error e s' := by
  rw [run_bind_eq]
  cases x s <;> simp

theorem leftBy_bind : leftBy (x >>= f) s =
    match x s with
    | .ok a s₁ => leftBy (f a) s₁
    | .error _ s₁ => s₁ := by
  rw [leftBy, run_bind_eq]
  cases x s <;> rfl

theorem leftBy_of_ok {a : α} (h : x s = .ok a s') : leftBy x s = s' := by
  rw [leftBy, h]

theorem leftBy_of_error {e : Error} (h : x s = .error e s') : leftBy x s = s' := by
  rw [leftBy, h]

end

/-- The session with a symbol at the end of its section. -/
def withSymbol (s : Session) (name : String) : Session :=
  { s with contents :=
    { s.contents with symbols := s.contents.symbols.insert name s.contents.items.size } }

/-- The session with one more item. -/
def withItem (s : Session) (item : Item) : Session :=
  { s with contents := s.contents.push item }

@[simp] theorem toList_withItem (s : Session) (item : Item) :
    (s.withItem item).contents.items.toList = s.contents.items.toList ++ [item] :=
  Array.toList_push

theorem update_eq (f : Session → Except Error Session) (s : Session) :
    update f s =
      match f s with
      | .ok s' => .ok () s'
      | .error e => .error e s := by
  unfold update
  rw [run_bind (run_get s)]
  cases f s <;> rfl

theorem addSymbol_eq (name : String) (s : Session) :
    addSymbol name s =
      if s.contents.defines name then .error (.duplicateSymbol name) s
      else .ok () (s.withSymbol name) := by
  unfold addSymbol
  rw [update_eq]
  unfold Section.define
  split
  · rename_i h
    split at h
    · cases h
    · rename_i hnew
      cases h
      rw [if_neg hnew]
      rfl
  · rename_i h
    split at h
    · rename_i hold
      cases h
      rw [if_pos hold]
    · cases h

/-- The session with one more definition of a numeric label. -/
def withCounted (s : Session) (n : Nat) : Session :=
  { s with labels := (s.labels.define n).2 }

theorem addLabel_numbered_eq (n : Nat) (s : Session) :
    addLabel (.numbered n) s =
      let name := Label.localSymbol n (s.labels.count n)
      if s.contents.defines name then .error (.duplicateSymbol name) (s.withCounted n)
      else .ok () ((s.withCounted n).withSymbol name) := by
  have hrun : addLabel (.numbered n) s =
      addSymbol (Label.localSymbol n (s.labels.count n)) (s.withCounted n) :=
    run_bind (run_modifyGet _ _)
  rw [hrun, addSymbol_eq]
  rfl

/-- The session with the number of the next dot used up. -/
def withDotUsed (s : Session) : Session :=
  { s with labels := { s.labels with nextDot := s.labels.nextDot + 1 } }

theorem nameDot_eq (e : Encoded) (s : Session) :
    nameDot e s =
      match e.dotAddend? with
      | none => .ok e s
      | some _ =>
        let dot := Label.dotSymbol s.labels.nextDot
        if s.contents.defines dot then .error (.duplicateSymbol dot) s.withDotUsed
        else .ok (e.named s.labels.nextDot) (s.withDotUsed.withSymbol dot) := by
  unfold nameDot Encoded.named Encoded.dotAddend?
  cases himm : e.imm with
  | none => rfl
  | some target =>
    cases target with
    | constant v => rfl
    | register r => rfl
    | symbol name addend =>
      dsimp only
      split
      · have hsame : s.withDotUsed.contents = s.contents := rfl
        dsimp only
        rw [run_bind (run_modifyGet _ _)]
        change (addSymbol (Label.dotSymbol s.labels.nextDot) >>= _) s.withDotUsed = _
        rw [run_bind_eq, addSymbol_eq, hsame]
        by_cases h : s.contents.defines (Label.dotSymbol s.labels.nextDot) = true
        · rw [if_pos h, if_pos h]
        · rw [if_neg h, if_neg h]
          rfl
      · rfl

/-- A dot that was named stands for a new symbol at the end of the section. -/
theorem eq_of_nameDot {e e' : Encoded} {s s' : Session} (h : nameDot e s = .ok e' s') :
    e' = e.named s.labels.nextDot ∧
      ((e.dotAddend? = none ∧ s' = s) ∨
        e.dotAddend?.isSome = true ∧
          s.contents.defines (Label.dotSymbol s.labels.nextDot) = false ∧
          s' = s.withDotUsed.withSymbol (Label.dotSymbol s.labels.nextDot)) := by
  rw [nameDot_eq] at h
  cases hdot : e.dotAddend? with
  | none =>
    rw [hdot] at h
    cases h
    exact ⟨by simp [Encoded.named, hdot], .inl ⟨rfl, rfl⟩⟩
  | some addend =>
    rw [hdot] at h
    dsimp only at h
    by_cases hold : s.contents.defines (Label.dotSymbol s.labels.nextDot) = true
    · rw [if_pos hold] at h
      cases h
    · rw [if_neg hold] at h
      cases h
      exact ⟨rfl, .inr ⟨rfl, by simpa using hold, rfl⟩⟩

/-- The session once an instruction was given, with its labels as references left them. -/
def begun (s : Session) (labels : Labels) : Session :=
  { s with started := true, labels := labels }

theorem encodeIn_eq (catalog : Catalogs → Catalog) (mnemonic : String) (operands : List Char)
    (s : Session) :
    encodeIn catalog mnemonic operands s =
      match s.labels.resolve operands with
      | (labels, .error e) => .error e (s.begun labels)
      | (labels, .ok text) =>
        match (catalog s.catalogs).encode (s.context true) mnemonic text with
        | .error cause => .error (.instruction cause) (s.begun labels)
        | .ok e => nameDot e (s.begun labels) := by
  have hstart : (modify fun s : Session => { s with started := true } : AssemblerM Unit) s =
      .ok () { s with started := true } := rfl
  unfold encodeIn resolveReferences
  rw [run_bind hstart, bind_assoc, run_bind (run_modifyGet _ _)]
  dsimp only
  cases s.labels.resolve operands with
  | mk labels outcome =>
    cases outcome with
    | error e => rfl
    | ok text =>
      dsimp only
      change (pure text >>= _ : AssemblerM Encoded) (s.begun labels) = _
      rw [pure_bind, run_bind (run_get _)]
      have hcatalogs : (s.begun labels).catalogs = s.catalogs := rfl
      have hcontext : (s.begun labels).context true = s.context true := rfl
      rw [hcatalogs, hcontext]
      cases (catalog s.catalogs).encode (s.context true) mnemonic text with
      | error cause => rfl
      | ok e => rfl

theorem exists_of_encodeIn {catalog : Catalogs → Catalog} {mnemonic : String}
    {operands : List Char} {s s₁ : Session} {e : Encoded}
    (h : encodeIn catalog mnemonic operands s = .ok e s₁) :
    ∃ labels text e₀, s.labels.resolve operands = (labels, .ok text) ∧
      (catalog s.catalogs).encode (s.context true) mnemonic text = .ok e₀ ∧
      nameDot e₀ (s.begun labels) = .ok e s₁ := by
  rw [encodeIn_eq] at h
  cases hresolve : s.labels.resolve operands with
  | mk labels outcome =>
    rw [hresolve] at h
    cases outcome with
    | error er => cases h
    | ok text =>
      dsimp only at h
      cases hencode : (catalog s.catalogs).encode (s.context true) mnemonic text with
      | error cause =>
        rw [hencode] at h
        cases h
      | ok e₀ =>
        rw [hencode] at h
        exact ⟨labels, text, e₀, rfl, hencode, h⟩

theorem place_of_item? {e : Encoded} {s : Session} {item : Item}
    (h : e.item? s.options.relax = some item) :
    ∃ placed, place e s = .ok placed (s.withItem item) := by
  cases hreloc : e.reloc with
  | none =>
    simp only [Encoded.item?, hreloc, Option.some.injEq] at h
    subst h
    unfold place
    rw [hreloc, run_bind (run_get s), run_bind (run_get s)]
    exact ⟨_, rfl⟩
  | some kind =>
    cases himm : e.imm with
    | none => simp [Encoded.item?, hreloc, himm] at h
    | some target =>
      cases target with
      | constant v => simp [Encoded.item?, hreloc, himm] at h
      | register r => simp [Encoded.item?, hreloc, himm] at h
      | symbol name addend =>
        cases hk : BranchKind.ofReloc? kind with
        | some k =>
          simp only [Encoded.item?, hreloc, himm, hk, Option.some.injEq] at h
          subst h
          exact place_of_branch himm hreloc hk s
        | none =>
          simp only [Encoded.item?, hreloc, himm, hk, Option.some.injEq] at h
          subst h
          unfold place
          rw [hreloc, himm, run_bind (run_get s), run_bind (run_get s)]
          dsimp only
          rw [hk]
          exact ⟨_, rfl⟩

/-- An instruction that has no item is refused, and that ends the session. -/
theorem place_of_item?_eq_none {e : Encoded} {s : Session}
    (h : e.item? s.options.relax = none) :
    ∃ er, er.endsSession = true ∧ place e s = .error er s := by
  cases hreloc : e.reloc with
  | none => simp [Encoded.item?, hreloc] at h
  | some kind =>
    unfold place
    rw [hreloc, run_bind (run_get s), run_bind (run_get s)]
    cases himm : e.imm with
    | none => exact ⟨_, rfl, rfl⟩
    | some target =>
      cases target with
      | constant v => exact ⟨_, rfl, rfl⟩
      | register r => exact ⟨_, rfl, rfl⟩
      | symbol name addend =>
        cases hk : BranchKind.ofReloc? kind <;> simp [Encoded.item?, hreloc, himm, hk] at h

/-- The session with the number of the next upper part of an address. -/
def withUpper (s : Session) (next : Nat) : Session :=
  { s with labels := { s.labels with nextUpper := next } }

theorem expand_eq (kind : PseudoKind) (e : Encoded) (s : Session) :
    expand kind e s =
      match kind.expand e s.isa.xlen s.options.pic s.labels.nextUpper with
      | .error cause => .error (.instruction cause) s
      | .ok (steps, next) =>
        runSteps e.template.mnemonic steps (s.withUpper next) := by
  unfold expand
  rw [run_bind (run_get s)]
  cases kind.expand e s.isa.xlen s.options.pic s.labels.nextUpper with
  | error cause => rfl
  | ok outcome => rfl

theorem leftBy_expand {kind : PseudoKind} {e : Encoded} {s : Session} {steps : List Step}
    {next : Nat}
    (h : kind.expand e s.isa.xlen s.options.pic s.labels.nextUpper = .ok (steps, next)) :
    leftBy (expand kind e) s = leftBy (runSteps e.template.mnemonic steps) (s.withUpper next) := by
  unfold leftBy
  rw [expand_eq, h]

/-! ### Steps of an expansion -/

theorem runStep_label (pseudo name : String) (s : Session) :
    runStep pseudo (.label name) s =
      if s.contents.defines name then .error (.duplicateSymbol name) s
      else .ok [] (s.withSymbol name) := by
  unfold runStep
  dsimp only
  rw [run_bind_eq, addSymbol_eq]
  by_cases h : s.contents.defines name = true
  · rw [if_pos h, if_pos h]
  · rw [if_neg h, if_neg h]
    rfl

theorem runStep_insn_eq (pseudo mnemonic : String) (operands : List Char)
    (reloc : Option (RelocType × Expr)) (s : Session) :
    runStep pseudo (.insn mnemonic operands reloc) s =
      match s.catalogs.instructions.encode
          (s.context (Step.insn mnemonic operands reloc).mayCompress) mnemonic operands with
      | .error cause =>
        .error (.impossible (.rejectedExpansion pseudo mnemonic (String.ofList operands) cause)) s
      | .ok e => (do return [← place (relocate e reloc)] : AssemblerM (List Placed)) s := by
  unfold runStep
  dsimp only
  rw [run_bind (run_get s)]
  cases s.catalogs.instructions.encode
      (s.context (Step.insn mnemonic operands reloc).mayCompress) mnemonic operands <;> rfl

theorem runStep_of_item? {mnemonic : String} {operands : List Char}
    {reloc : Option (RelocType × Expr)} {s : Session} {e : Encoded} {item : Item}
    (hencode : s.catalogs.instructions.encode
      (s.context (Step.insn mnemonic operands reloc).mayCompress) mnemonic operands = .ok e)
    (hitem : (relocate e reloc).item? s.options.relax = some item) (pseudo : String) :
    ∃ placed, runStep pseudo (.insn mnemonic operands reloc) s = .ok placed (s.withItem item) := by
  obtain ⟨placed, hplaced⟩ := place_of_item? hitem
  rw [runStep_insn_eq, hencode]
  exact ⟨[placed], run_bind hplaced⟩

/-- An instruction of an expansion is encoded and placed, or ends the session. -/
theorem runStep_insn_cases (pseudo mnemonic : String) (operands : List Char)
    (reloc : Option (RelocType × Expr)) (s : Session) :
    (∃ er, er.endsSession = true ∧ runStep pseudo (.insn mnemonic operands reloc) s = .error er s) ∨
      ∃ e item placed,
        s.catalogs.instructions.encode (s.context (Step.insn mnemonic operands reloc).mayCompress)
          mnemonic operands = .ok e ∧
        (relocate e reloc).item? s.options.relax = some item ∧
        runStep pseudo (.insn mnemonic operands reloc) s = .ok placed (s.withItem item) := by
  cases hencode : s.catalogs.instructions.encode
      (s.context (Step.insn mnemonic operands reloc).mayCompress) mnemonic operands with
  | error cause =>
    rw [runStep_insn_eq, hencode]
    exact .inl ⟨_, rfl, rfl⟩
  | ok e =>
    cases hitem : (relocate e reloc).item? s.options.relax with
    | none =>
      obtain ⟨er, hends, her⟩ := place_of_item?_eq_none hitem
      rw [runStep_insn_eq, hencode]
      exact .inl ⟨er, hends, run_bind_eq_error_iff.2 (.inl her)⟩
    | some item =>
      obtain ⟨placed, hrun⟩ := runStep_of_item? hencode hitem pseudo
      exact .inr ⟨e, item, placed, rfl, hitem, hrun⟩

theorem leftBy_runSteps_cons (pseudo : String) (step : Step) (steps : List Step) (s : Session) :
    leftBy (runSteps pseudo (step :: steps)) s =
      match runStep pseudo step s with
      | .ok _ s₁ => leftBy (runSteps pseudo steps) s₁
      | .error _ s₁ => s₁ := by
  rw [runSteps, leftBy_bind]
  cases runStep pseudo step s with
  | ok here s₁ =>
    dsimp only
    rw [leftBy_bind, leftBy]
    cases runSteps pseudo steps s₁ <;> rfl
  | error e s₁ => rfl

/-- The item of a step that has a relocation of its own. -/
theorem item?_relocate {e : Encoded} {kind : RelocType} {target : Expr} {relax : Bool} {item : Item}
    (hkind : BranchKind.ofReloc? kind = none)
    (h : (relocate e (some (kind, target))).item? relax = some item) :
    (∃ name addend, target = .symbol name addend) ∧
      item = .data e.toBytes (some ⟨kind, target, kind.mayRelax relax⟩) := by
  cases target with
  | symbol name addend =>
    simp only [relocate, Encoded.item?, hkind, Option.some.injEq] at h
    exact ⟨⟨name, addend, rfl⟩, h.symm⟩
  | constant v => cases h
  | register r => cases h

end Session

end RiscvAssembler
