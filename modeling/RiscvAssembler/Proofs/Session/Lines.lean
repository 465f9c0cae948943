import Mathlib.Data.List.SplitBy
import RiscvAssembler.Proofs.Session.Instructions
import RiscvAssembler.Session.Source

/-!
Lines with a branch to a symbol. Given how the branch is encoded, the line defines its labels and
appends the branch, with its length left open (`line_of_instruction`, `line_of_fields`).
-/

namespace RiscvAssembler

/-- What is known of an encoded branch to a symbol. -/
def Encoded.outline (e : Encoded) : Option PseudoKind × Word × Option Expr × Option RelocType :=
  (e.template.pseudo, e.bits, e.imm, e.reloc)

namespace Session

/-! ### Steps -/

theorem run_bind {α β : Type} {x : AssemblerM α} {f : α → AssemblerM β} {s s' : Session} {a : α}
    (h : x s = .ok a s') : (x >>= f) s = f a s' := by
  change EStateM.bind x f s = _
  unfold EStateM.bind
  rw [h]

theorem run_get (s : Session) : (get : AssemblerM Session) s = .ok s s :=
  rfl

theorem run_modifyGet {α : Type} (f : Session → α × Session) (s : Session) :
    (modifyGet f : AssemblerM α) s = .ok (f s).1 (f s).2 :=
  rfl

theorem update_of_ok {f : Session → Except Error Session} {s s' : Session} (h : f s = .ok s') :
    update f s = .ok () s' := by
  unfold update
  rw [run_bind (run_get s), h]
  rfl

/-- Operands without numeric references stay as they are. -/
theorem resolve_of_plain {operands : List Char}
    (h : (Labels.tokens operands).all (fun token => (Label.reference? token).isNone) = true)
    (l : Labels) : l.resolve operands = (l, .ok operands) := by
  have htokens : ∀ tokens : List (List Char),
      tokens.all (fun token => (Label.reference? token).isNone) = true →
        l.resolveTokens tokens = (l, .ok tokens.flatten) := by
    intro tokens htokens
    induction tokens with
    | nil => rfl
    | cons token tokens ih =>
      rw [List.all_cons, Bool.and_eq_true, Option.isNone_iff_eq_none] at htokens
      unfold Labels.resolveTokens Labels.resolveToken
      rw [htokens.1]
      dsimp only
      rw [ih htokens.2]
      rfl
  unfold Labels.resolve
  rw [htokens _ h, Labels.tokens, List.flatten_splitBy]

theorem resolveReferences_of_resolve {s : Session} {operands : List Char}
    (h : s.labels.resolve operands = (s.labels, .ok operands)) :
    resolveReferences operands s = .ok operands s := by
  unfold resolveReferences
  rw [run_bind (run_modifyGet _ s), h]
  rfl

/-- A branch to a symbol is appended. -/
theorem place_of_branch {e : Encoded} {kind : RelocType} {k : BranchKind} {name : String}
    {addend : Int64} (himm : e.imm = some (.symbol name addend)) (hreloc : e.reloc = some kind)
    (hk : BranchKind.ofReloc? kind = some k) (s : Session) :
    ∃ placed, place e s = .ok placed { s with
      contents := s.contents.push (.branch (.new k e.bits name addend) s.options.relax) } := by
  have hupdate : update (fun s' => (s'.contents.appendBranch e.bits kind (.symbol name addend)
      s.options.relax).map fun contents => { s' with contents := contents }) s = .ok () { s with
        contents := s.contents.push (.branch (.new k e.bits name addend) s.options.relax) } := by
    apply update_of_ok
    rw [appendBranch_symbol hk]
    rfl
  unfold place
  rw [himm, hreloc, run_bind (run_get s), run_bind (run_get s)]
  dsimp only
  rw [hk]
  exact ⟨_, run_bind hupdate⟩

section

variable {labels : List Label} {text operands : List Char} {mnemonic : String} {s s₁ : Session}
  {e : Encoded} {bits : Word} {name : String} {addend : Int64} {kind : RelocType} {k : BranchKind}

theorem encodeIn_of_encode {catalog : Catalogs → Catalog}
    (hresolve : s.labels.resolve operands = (s.labels, .ok operands))
    (hencode : (catalog s.catalogs).encode (s.context true) mnemonic operands = .ok e)
    (himm : e.imm = some (.symbol name addend)) (hname : name ≠ ".") :
    encodeIn catalog mnemonic operands s = .ok e { s with started := true } := by
  have hstart : (modify fun s : Session => { s with started := true } : AssemblerM Unit) s =
      .ok () { s with started := true } := rfl
  have hreferences : resolveReferences operands { s with started := true } =
      .ok operands { s with started := true } := resolveReferences_of_resolve hresolve
  have hencode' : (catalog { s with started := true }.catalogs).encode
      ({ s with started := true }.context true) mnemonic operands = .ok e := hencode
  unfold encodeIn
  rw [run_bind hstart, run_bind hreferences, run_bind (run_get _)]
  simp only [hencode']
  unfold nameDot
  rw [himm]
  dsimp only
  rw [if_neg hname]
  rfl

/-- The session after a branch to a symbol. -/
def withBranch (s : Session) (k : BranchKind) (bits : Word) (name : String) (addend : Int64) :
    Session :=
  { s with
    started := true
    contents := s.contents.push (.branch (.new k bits name addend) s.options.relax) }

theorem exists_of_outline {outcome : Except InstructionError Encoded}
    (h : outcome.toOption.map Encoded.outline =
      some (none, bits, some (.symbol name addend), some kind)) :
    ∃ e, outcome = .ok e ∧ e.template.pseudo = none ∧ e.bits = bits ∧
      e.imm = some (.symbol name addend) ∧ e.reloc = some kind := by
  obtain ⟨e, he, houtline⟩ := Option.map_eq_some_iff.1 h
  simp only [Encoded.outline, Prod.mk.injEq] at houtline
  exact ⟨e, eq_ok_of_toOption he, houtline⟩

/-- A line with a branch to a symbol. -/
theorem line_of_instruction (hread : Line.read text = ⟨labels, .instruction mnemonic operands⟩)
    (hlabels : labels.forM addLabel s = .ok () s₁)
    (hresolve : s₁.labels.resolve operands = (s₁.labels, .ok operands))
    (houtline : (s₁.catalogs.instructions.encode (s₁.context true) mnemonic
      operands).toOption.map Encoded.outline =
        some (none, bits, some (.symbol name addend), some kind))
    (hname : name ≠ ".") (hk : BranchKind.ofReloc? kind = some k) :
    line text s = .ok () (s₁.withBranch k bits name addend) := by
  obtain ⟨e, hencode, hreal, rfl, himm, hreloc⟩ := exists_of_outline houtline
  obtain ⟨placed, hplaced⟩ := place_of_branch himm hreloc hk { s₁ with started := true }
  unfold line
  rw [hread, run_bind hlabels]
  dsimp only [statement]
  unfold instruction
  rw [bind_assoc, run_bind (encodeIn_of_encode hresolve hencode himm hname), hreal]
  dsimp only
  rw [bind_assoc, run_bind hplaced]
  rfl

/-- A line with a branch to a symbol that is given field by field. -/
theorem line_of_fields {fields type : List Char} (hread : Line.read text = ⟨labels, .fields fields⟩)
    (hlabels : labels.forM addLabel s = .ok () s₁)
    (hword : Text.firstWord fields = (type, operands)) (htype : type.isEmpty = false)
    (hresolve : s₁.labels.resolve operands = (s₁.labels, .ok operands))
    (houtline : (s₁.catalogs.fieldTypes.encode (s₁.context true) (String.ofList type)
      operands).toOption.map Encoded.outline =
        some (none, bits, some (.symbol name addend), some kind))
    (hname : name ≠ ".") (hk : BranchKind.ofReloc? kind = some k) :
    line text s = .ok () (s₁.withBranch k bits name addend) := by
  obtain ⟨e, hencode, -, rfl, himm, hreloc⟩ := exists_of_outline houtline
  obtain ⟨placed, hplaced⟩ := place_of_branch himm hreloc hk { s₁ with started := true }
  unfold line
  rw [hread, run_bind hlabels]
  dsimp only [statement]
  unfold fieldInstruction
  rw [hword]
  dsimp only
  rw [if_neg (by simp [htype]), bind_assoc,
    run_bind (encodeIn_of_encode hresolve hencode himm hname), bind_assoc, run_bind hplaced]
  rfl

end

end Session

end RiscvAssembler
