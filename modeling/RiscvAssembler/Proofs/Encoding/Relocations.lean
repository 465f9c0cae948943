import RiscvAssembler.Proofs.Encoding.Ownership

/-!
The relocations of encoded instructions. Each one is asked for by an operand that may do so
(`Template.mem_relocs_of_encode`) and whose bits are left clear (`Template.clear_of_encode`), and a
text without a modifier gives none where only modifiers ask for relocations
(`Template.reloc_eq_none_of_encode`).
-/

namespace RiscvAssembler

namespace Operand

/-- The relocations that an operand may ask for. -/
def relocs : Operand → List RelocType
  | .imm12 i => (Modifiers.low i).map Prod.snd
  | .tprelAdd => Modifiers.add.map Prod.snd
  | .upper => Modifiers.upper.map Prod.snd
  | .target k => [k.reloc]
  | .call => [.call, .callPlt]
  | .symbol | .address => [.abs32]
  | _ => []

/-- Whether an operand may have a modifier. -/
def takesModifier : Operand → Bool
  | .imm12 _ | .tprelAdd | .upper => true
  | _ => false

/-- Whether an operand is read without the evaluator. -/
def isLiteral : Operand → Bool
  | .mark _ | .register .. | .bothSources | .shortRegister .. | .repeated _ | .fixed _ => true
  | _ => false

end Operand

namespace Reading

variable {ctx : Context} {s rest after : List Char} {e e' : Expr} {kind kind' : RelocType}

theorem head?_of_modified {ms : Modifiers} (h : modified ctx ms s = .ok (some kind, e, rest)) :
    s.head? = some '%' := by
  unfold modified at h
  split at h
  · rename_i hhead
    exact hhead
  · obtain ⟨⟨e', after⟩, -, h⟩ := bind_eq_ok_iff.1 h
    cases h

/-- An expression under a modifier is left with the relocation of the modifier. -/
theorem kind_of_relocated
    (h : (relocated kind e).map (·, after) = .ok (.pending e' (some kind'), rest)) :
    kind' = kind := by
  cases e with
  | constant v =>
    dsimp only [relocated] at h
    split at h
    · cases h
    · cases h
  | symbol name addend =>
    cases h
    rfl
  | register name => cases h

end Reading

open Reading in
/-- The relocation that an operand asks for is one of its own, and a modifier was written for it if
it takes one. -/
theorem Operand.mem_relocs_of_read {ctx : Context} {mnemonic : String} {word : Word} {op : Operand}
    {s rest : List Char} {e : Expr} {kind : RelocType}
    (h : op.read ctx mnemonic word s = .ok (.pending e (some kind), rest)) :
    kind ∈ op.relocs ∧ (op.takesModifier = true → s.head? = some '%') := by
  have hgives := gives_of_read h
  unfold read at h
  split at h
  · cases h
  · cases op with
    | imm12 i =>
      obtain ⟨⟨modifier, e', after⟩, hmodified, h⟩ := bind_eq_ok_iff.1 h
      split at h
      · rename_i heq
        cases heq
        rw [kind_of_relocated h]
        exact ⟨mem_of_modified hmodified, fun _ => head?_of_modified hmodified⟩
      · split at h
        · cases h
        · cases h
      · cases h
    | tprelAdd =>
      obtain ⟨⟨modifier, e', after⟩, hmodified, h⟩ := bind_eq_ok_iff.1 h
      split at h
      · rename_i heq
        cases heq
        rw [kind_of_relocated h]
        exact ⟨mem_of_modified hmodified, fun _ => head?_of_modified hmodified⟩
      · cases h
    | upper =>
      obtain ⟨⟨modifier, e', after⟩, hmodified, h⟩ := bind_eq_ok_iff.1 h
      split at h
      · rename_i heq
        cases heq
        rw [kind_of_relocated h]
        exact ⟨mem_of_modified hmodified, fun _ => head?_of_modified hmodified⟩
      · split at h
        · cases h
        · cases h
      · cases h
    | target k =>
      obtain ⟨name, addend, -, hr⟩ := symbol_eq_ok_iff.1 h
      cases hr
      exact ⟨List.mem_singleton_self _, fun h => by cases h⟩
    | call =>
      refine ⟨?_, fun h => by cases h⟩
      dsimp only [Reading.call] at h
      split at h
      · split at h
        · cases h
          exact List.mem_cons_of_mem _ List.mem_cons_self
        · cases h
          exact List.mem_cons_self
      · cases h
    | symbol =>
      obtain ⟨name, addend, -, hr⟩ := symbol_eq_ok_iff.1 h
      cases hr
      exact ⟨List.mem_singleton_self _, fun h => by cases h⟩
    | address =>
      refine ⟨?_, fun h => by cases h⟩
      dsimp only [Reading.address] at h
      split at h
      · cases h
        exact List.mem_singleton_self _
      · cases h
      · cases h
    | constant =>
      dsimp only [Reading.constant] at h
      split at h
      · cases h
      · cases h
    | _ =>
      cases hgives with
      | symbol hdeferred => cases hdeferred

theorem Context.register_suffix {ctx : Context} {bank : Bank} {s rest : List Char} {n : Nat}
    (h : ctx.register bank s = some (n, rest)) : rest <:+ s := by
  obtain ⟨m, -, heq⟩ := Option.map_eq_some_iff.1 (Option.filter_eq_some_iff.1 h).1
  cases heq
  exact List.dropWhile_suffix _

open Reading in
/-- An operand without an expression leaves the end of the text. -/
theorem Operand.suffix_of_read {ctx : Context} {mnemonic : String} {word : Word} {op : Operand}
    (hop : op.isLiteral = true) {s rest : List Char} {r : Reading}
    (h : op.read ctx mnemonic word s = .ok (r, rest)) : rest <:+ s := by
  unfold read at h
  split at h
  · cases h
    exact List.suffix_rfl
  · cases op with
    | mark m =>
      cases hafter : Text.afterChar? m.char s with
      | none => simp [fit, hafter, Except.map] at h
      | some after =>
        simp only [fit, hafter, Except.map] at h
        cases h
        cases s with
        | nil => cases hafter
        | cons c s =>
          dsimp only [Text.afterChar?] at hafter
          split at hafter
          · cases hafter
            exact List.suffix_cons _ _
          · cases hafter
    | register bank slot =>
      obtain ⟨n, hfound, -⟩ := number_eq_ok_iff.1 h
      exact Context.register_suffix hfound
    | bothSources =>
      obtain ⟨n, hfound, -⟩ := number_eq_ok_iff.1 h
      exact Context.register_suffix hfound
    | shortRegister bank slot =>
      obtain ⟨n, hfound, -⟩ := number_eq_ok_iff.1 h
      exact Context.register_suffix (Option.filter_eq_some_iff.1 hfound).1
    | repeated slot =>
      obtain ⟨hfound, -⟩ := sameRegister_eq_ok_iff.1 h
      exact Context.register_suffix hfound
    | fixed r =>
      obtain ⟨hfound, -⟩ := sameRegister_eq_ok_iff.1 h
      exact Context.register_suffix hfound
    | _ => cases hop

/-! ### Encoded instructions -/

namespace Template

variable {ctx : Context} {mnemonic : String} {ops : List Operand} {d : Draft}
  {s rest : List Char} {rs : List Reading} {kind : RelocType}

/-- A relocation was there before, or some operand left an expression for it. -/
theorem exists_pending_of_walks (h : Walks ctx mnemonic d ops s rs rest)
    (hkind : (addReadings d ops rs).reloc = some kind) :
    d.reloc = some kind ∨
      ∃ op e, (op, .pending e (some kind)) ∈ ops.zip rs ∧ kind ∈ op.relocs := by
  induction ops generalizing d s rs with
  | nil => exact .inl hkind
  | cons op ops ih =>
    obtain ⟨r, after, more, rfl, hread, hwalks⟩ := h
    rcases ih hwalks hkind with hadd | ⟨op', e, hmem, hop'⟩
    · cases r with
      | nothing => exact .inl hadd
      | value v => exact .inl hadd
      | folded kind' v => exact .inl hadd
      | pending e reloc =>
        cases reloc with
        | none => exact .inl hadd
        | some kind' =>
          cases hadd
          exact .inr ⟨op, e, List.mem_cons_self, (Operand.mem_relocs_of_read hread).1⟩
    · exact .inr ⟨op', e, List.mem_cons_of_mem _ hmem, hop'⟩

theorem mem_relocs_of_walks (h : Walks ctx mnemonic d ops s rs rest)
    (hkind : (addReadings d ops rs).reloc = some kind) :
    d.reloc = some kind ∨ ∃ op ∈ ops, kind ∈ op.relocs :=
  (exists_pending_of_walks h hkind).imp_right fun ⟨op, _, hmem, hop⟩ =>
    ⟨op, (List.of_mem_zip hmem).1, hop⟩

theorem mem_relocs_of_encode {t : Template} {e : Encoded} (h : t.encode ctx s = .ok e)
    (hkind : e.reloc = some kind) : ∃ op ∈ t.operands, kind ∈ op.relocs := by
  obtain ⟨rs, rest, hwalks, -, -, -, hreloc⟩ := exists_walk_of_encode h
  rw [hreloc] at hkind
  exact (mem_relocs_of_walks hwalks hkind).resolve_left (by simp [start])

/-! ### Fields of relocations -/

/-- Whether every relocation that an instruction may get is for its bytes, and for bits of the operand
that asks for it. -/
def hasRoom (t : Template) : Bool :=
  t.isPseudo || [2, 4].contains t.length && t.operands.all fun op => op.relocs.all fun kind =>
    kind.info.size == t.length && op.bits &&& kind.info.mask == kind.info.mask

theorem hasRoom_of_mem_standard {cs : Catalogs} (hcs : Catalogs.standard = .ok cs) {t : Template}
    (ht : t ∈ cs.instructions.templates ++ cs.fieldTypes.templates) : t.hasRoom = true :=
  of_mem_standard hcs hasRoom (by decide +kernel) ht

/-- **The field of a relocation is clear**, and the relocation is for the bytes of the instruction. -/
theorem clear_of_encode {cs : Catalogs} (hcs : Catalogs.standard = .ok cs) {t : Template}
    (ht : t ∈ cs.instructions.templates ++ cs.fieldTypes.templates) (hreal : t.isPseudo = false)
    {e : Encoded} (h : t.encode ctx s = .ok e) (hkind : e.reloc = some kind) :
    (t.length = 2 ∨ t.length = 4) ∧ kind.info.size = t.length ∧ e.bits &&& kind.info.mask = 0 := by
  obtain ⟨rs, hread, -, -, hslices⟩ := slices_of_encode hcs ht hreal h
  obtain ⟨rs', hread', -, -, -, hreloc⟩ := exists_readings_of_encode h
  cases hread.symm.trans hread'
  obtain ⟨rest, hwalks, -⟩ := readOperands_eq_ok_iff.1 hread
  rw [hreloc] at hkind
  obtain ⟨op, e', hmem, hop⟩ := (exists_pending_of_walks hwalks hkind).resolve_left (by simp [start])
  have hroom := hasRoom_of_mem_standard hcs ht
  simp only [hasRoom, hreal, Bool.false_or, Bool.and_eq_true, List.all_eq_true, beq_iff_eq,
    List.contains_iff_mem, List.mem_pair] at hroom
  obtain ⟨hlength, hroom⟩ := hroom
  obtain ⟨hsize, hmask⟩ := hroom op (List.of_mem_zip hmem).1 kind hop
  exact ⟨hlength, hsize, and_eq_zero_of_part (hslices _ hmem).2 hmask⟩

/-- Whether every relocation is asked for by a modifier, and no expression is read before it. -/
def readsModifierFirst : List Operand → Bool
  | [] => true
  | op :: ops =>
    (op.takesModifier || op.relocs.isEmpty) &&
      ((op.isLiteral && readsModifierFirst ops) || ops.all fun op => op.relocs.isEmpty)

/-- Operands that ask for relocations by modifiers only ask for none if no modifier is written. -/
theorem percent_of_walks (hops : readsModifierFirst ops = true)
    (h : Walks ctx mnemonic d ops s rs rest) (hd : d.reloc = none)
    (hkind : (addReadings d ops rs).reloc = some kind) : '%' ∈ s := by
  have hsuffix (s : List Char) : Text.dropBlanks s <:+ s := List.dropWhile_suffix _
  induction ops generalizing d s rs with
  | nil => cases hd.symm.trans hkind
  | cons op ops ih =>
    obtain ⟨r, after, more, rfl, hread, hwalks⟩ := h
    simp only [readsModifierFirst, Bool.and_eq_true, Bool.or_eq_true, List.isEmpty_iff,
      List.all_eq_true] at hops
    obtain ⟨hop, hops⟩ := hops
    by_cases hasks : (d.add op r).reloc = none
    · rcases hops with ⟨hliteral, hfirst⟩ | hnone
      · have hafter : '%' ∈ after := ih hfirst hwalks hasks hkind
        exact ((Operand.suffix_of_read hliteral hread).trans (hsuffix s)).mem hafter
      · obtain ⟨op', hmem, hop'⟩ := (mem_relocs_of_walks hwalks hkind).resolve_left (by simp [hasks])
        rw [hnone op' hmem] at hop'
        cases hop'
    · -- The relocation that is there now comes from a modifier.
      cases r with
      | nothing => exact absurd hd hasks
      | value v => exact absurd hd hasks
      | folded kind' v => exact absurd hd hasks
      | pending e reloc =>
        cases reloc with
        | none => exact absurd hd hasks
        | some kind' =>
          obtain ⟨hmem, hhead⟩ := Operand.mem_relocs_of_read hread
          have htakes : op.takesModifier = true := by
            refine hop.resolve_right fun hempty => ?_
            rw [hempty] at hmem
            cases hmem
          exact (hsuffix s).mem (List.mem_of_mem_head? (hhead htakes))

theorem reloc_eq_none_of_encode {t : Template} (ht : readsModifierFirst t.operands = true)
    {e : Encoded} (h : t.encode ctx s = .ok e) (hs : '%' ∉ s) : e.reloc = none := by
  obtain ⟨rs, rest, hwalks, -, -, -, hreloc⟩ := exists_walk_of_encode h
  rw [hreloc]
  cases hkind : (addReadings t.start t.operands rs).reloc with
  | none => rfl
  | some kind => exact absurd (percent_of_walks ht hwalks rfl hkind) hs

end Template

end RiscvAssembler
