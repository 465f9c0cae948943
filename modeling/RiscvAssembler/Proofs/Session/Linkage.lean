import RiscvAssembler.Proofs.Encoding.Relocations
import RiscvAssembler.Proofs.Section.Linkage
import RiscvAssembler.Proofs.Session.Anchors

/-!
Sessions for a linker. What a call appends leaves room for its relocations (`Call.appends`), so
in every layout of a run the relocations are for bytes of their own, with nothing in their fields but
distances that were filled in (`relocations_have_fields_of_their_own`). Only a compressed branch given
field by field, with the word of another kind, has stray bits there once it is widened
(`widened_jump_has_stray_bits`).
-/

namespace RiscvAssembler

/-! ### Instructions that leave room -/

/-- An encoded instruction leaves room for its relocation, which is for its bytes. -/
def Encoded.Clear (e : Encoded) : Prop :=
  ∀ kind, e.reloc = some kind →
    (e.length = 2 ∨ e.length = 4) ∧ kind.info.size = e.length ∧ e.bits &&& kind.info.mask = 0

/-- The bits that an instruction has in the field of its relocation once it is widened. -/
def Encoded.strayBits (e : Encoded) (kind : RelocType) : Word :=
  match e.reloc.bind BranchKind.ofReloc? with
  | some k => k.strayBits e.bits kind
  | none => 0

section

variable {e : Encoded}

theorem Encoded.strayBits_named (n : Nat) (kind : RelocType) :
    (e.named n).strayBits kind = e.strayBits kind := by
  unfold strayBits
  rw [reloc_named, bits_named]

theorem Encoded.Clear.named (h : e.Clear) (n : Nat) : (e.named n).Clear := by
  intro kind hkind
  rw [reloc_named] at hkind
  rw [length, template_named, bits_named]
  exact h kind hkind

/-- What leaves room is placed as an item that does. -/
theorem Encoded.Clear.fits (h : e.Clear) {relax : Bool} {item : Item}
    (hitem : e.item? relax = some item) :
    item.Fits none ∧ ∀ kind, item.strayBits kind = e.strayBits kind := by
  unfold item? at hitem
  unfold Encoded.strayBits
  split at hitem
  · rename_i hreloc
    cases hitem
    rw [hreloc]
    exact ⟨.plain, fun _ => rfl⟩
  · rename_i kind name addend hreloc _
    obtain ⟨hlength, hsize, hclear⟩ := h kind hreloc
    rw [hreloc, Option.bind_some]
    cases hk : BranchKind.ofReloc? kind with
    | some k =>
      rw [hk] at hitem
      cases hitem
      obtain rfl := BranchKind.ofReloc?_eq_some_iff.1 hk
      exact ⟨.branch hclear, fun _ => rfl⟩
    | none =>
      rw [hk] at hitem
      cases hitem
      have hbytes : e.toBytes.length = e.length := Word.length_toBytes _ _
      refine ⟨.field hk (hsize.trans hbytes.symm) (hbytes ▸ hlength) ?_, fun _ => rfl⟩
      -- The bytes may be fewer than those of a word, but they are among its bits.
      rw [toBytes, Word.ofBytes_toBytes, BitVec.and_assoc, BitVec.and_comm (Word.lowMask _),
        ← BitVec.and_assoc, hclear]
      exact BitVec.zero_and
  · cases hitem

/-- A step that leaves room is encoded as an instruction that does, and not as a branch. -/
theorem Step.Clear.relocate {cs : Catalogs} {ctx : Context} {mnemonic : String}
    {operands : List Char} {reloc : Option (RelocType × Expr)}
    (h : (Step.insn mnemonic operands reloc).Clear cs ctx)
    (he : cs.instructions.encode
      { ctx with allowCompressed := (Step.insn mnemonic operands reloc).mayCompress } mnemonic
        operands = .ok e) :
    (Session.relocate e reloc).Clear ∧ ∀ kind, (Session.relocate e reloc).strayBits kind = 0 := by
  cases reloc with
  | none =>
    have hreloc : e.reloc = none := h e he
    refine ⟨fun kind hkind => ?_, fun kind => ?_⟩
    · cases hreloc.symm.trans hkind
    · unfold Encoded.strayBits
      rw [show (Session.relocate e none).reloc = none from hreloc]
      rfl
  | some pair =>
    obtain ⟨kind, target⟩ := pair
    obtain ⟨hpart, hclear⟩ := h
    obtain ⟨hlength, hbits⟩ := hclear e he
    have hkind : kind.info.size = 4 ∧ BranchKind.ofReloc? kind = none := by
      rcases hpart with hupper | hlow
      · exact ⟨(RelocType.info_of_isUpperPart hupper).1, RelocType.ofReloc?_of_isUpperPart hupper⟩
      · exact ⟨RelocType.size_of_isLowPart hlow, RelocType.ofReloc?_of_isLowPart hlow⟩
    refine ⟨?_, fun kind' => ?_⟩
    · rintro _ ⟨⟩
      exact ⟨.inr (hlength.trans hkind.1), hlength.symm, hbits⟩
    · unfold Encoded.strayBits
      rw [show (Session.relocate e (some (kind, target))).reloc = some kind from rfl,
        Option.bind_some, hkind.2]

end

/-! ### Words of their kind -/

/-- Whether the words of an instruction are those of its kind of branch. -/
def Template.namesItsKind (t : Template) : Bool :=
  t.operands.all fun
    | .target k => !k.isMisnamed t.matchBits
    | _ => true

/-- Only instructions given field by field have words of another kind. -/
theorem Template.isMisnamed_of_encode {t : Template} (ht : t ∈ standardTemplates)
    (hreal : t.isPseudo = false) (hvalid : t.validate (some t.length) = .ok ()) {k : BranchKind}
    (htarget : .target k ∈ t.operands) {ctx : Context} {text : List Char} {e : Encoded}
    (h : t.encode ctx text = .ok e) : k.isMisnamed e.bits = false := by
  have hnames := of_mem_standardTemplates namesItsKind (by decide +kernel) ht
  have hown := List.all_eq_true.1 hnames _ htarget
  have hwide := List.all_eq_true.1 (regular_of_mem ht).hasWideForm _ htarget
  cases hshort : k.isShort with
  | false =>
    cases k with
    | branch | jump => rfl
    | shortBranch | shortJump => cases hshort
  | true =>
    simp only [hshort, Bool.not_true, Bool.false_or, Bool.and_eq_true, beq_iff_eq] at hwide
    rw [BranchKind.isMisnamed_congr (bits_and_of_encode hreal hvalid h hwide.1)]
    simpa using hown

/-- A pseudo-instruction is no branch. -/
theorem Encoded.strayBits_of_pseudo {e : Encoded} (ht : e.template ∈ standardTemplates)
    {pseudo : PseudoKind} (hpseudo : e.template.pseudo = some pseudo)
    (hleft : Leftover e.template.operands e.imm e.reloc) (kind : RelocType) :
    e.strayBits kind = 0 := by
  have hexpandable := Template.isExpandable_of_mem ht hpseudo
  simp only [Template.isExpandable, Bool.and_eq_true] at hexpandable
  unfold strayBits
  split
  · rename_i k hk
    obtain ⟨r, hreloc, hk⟩ := Option.bind_eq_some_iff.1 hk
    rw [hreloc] at hleft
    generalize e.imm = imm at hleft
    cases hleft with
    | symbol _ _ _ hbranch => cases List.all_eq_true.1 hexpandable.2 _ (hbranch k hk)
  · rfl

namespace Session

/-! ### Expansions -/

/-- What was appended to a session leaves room for its relocations, and has the given stray bits. -/
def Appends (stray : RelocType → Word) (s s' : Session) : Prop :=
  ∃ new, s'.contents.items.toList = s.contents.items.toList ++ new ∧ Linkable new ∧
    ∀ item ∈ new, ∀ kind, item.strayBits kind = stray kind

section

variable {s s₁ s' : Session} {stray : RelocType → Word}

theorem Appends.of_same (h : s'.contents.items = s.contents.items) : Appends stray s s' :=
  ⟨[], by rw [h, List.append_nil], trivial, List.forall_mem_nil _⟩

theorem Appends.of_idles (h : Idles s s₁) (happends : Appends stray s₁ s') : Appends stray s s' := by
  unfold Appends at happends ⊢
  rw [← h.same]
  exact happends

/-- Steps that leave room place items that do. -/
theorem appends_runSteps (pseudo : String) {steps : List Step}
    (h : ∀ step ∈ steps, step.Clear s.catalogs (s.context true)) :
    Appends (fun _ => 0) s (leftBy (runSteps pseudo steps) s) := by
  have hitems : ∃ new, (leftBy (runSteps pseudo steps) s).contents.items.toList =
      s.contents.items.toList ++ new ∧
        ∀ item ∈ new, item.Fits none ∧ ∀ kind, item.strayBits kind = 0 := by
    apply items_runSteps
    intro mnemonic operands reloc hstep e item hencode hitem
    obtain ⟨hclear, hnone⟩ := (h _ hstep).relocate hencode
    obtain ⟨hfits, hsame⟩ := hclear.fits hitem
    exact ⟨hfits, fun kind => (hsame kind).trans (hnone kind)⟩
  obtain ⟨new, hnew, hall⟩ := hitems
  exact ⟨new, hnew, linkable_of_forall fun item hitem => (hall item hitem).1,
    fun item hitem => (hall item hitem).2⟩

open Expansion in
/-- A call is carried out with its two words. -/
theorem leftBy_call (hset : Setting s.catalogs (s.context true)) (pseudo : String) {link base : Nat}
    (hlink : (Token.register .integer link).Legible (s.context true))
    (hbase : (Token.register .integer base).Legible (s.context true)) {kind : RelocType}
    (hkind : BranchKind.ofReloc? kind = none) (name : String) (addend : Int64) :
    leftBy (runSteps pseudo [.insn "auipc" (withZero base) (some (kind, .symbol name addend)),
        .insn "jalr" (integer link ++ ", ".toList ++ integer base) none]) s =
      (s.withItem (.data ((upperWord base).toBytes 4)
        (some ⟨kind, .symbol name addend, kind.mayRelax s.options.relax⟩))).withItem
          (.data ((jumpWord link base).toBytes 4) none) := by
  obtain ⟨upper, hupper, hlength, hbits⟩ := encode_upper hset hbase
  obtain ⟨jump, hjump, hlength', hbits'⟩ := encode_jump hset hlink hbase
  have hitem : (relocate upper (some (kind, .symbol name addend))).item? s.options.relax =
      some (.data ((upperWord base).toBytes 4)
        (some ⟨kind, .symbol name addend, kind.mayRelax s.options.relax⟩)) := by
    rw [← hbits, ← hlength]
    simp only [relocate, Encoded.item?, hkind]
    rfl
  have hitem' : (relocate jump none).item? s.options.relax =
      some (.data ((jumpWord link base).toBytes 4) none) := by
    have hreloc : jump.reloc = none := reloc_eq_none_of_plain hset.standard
      (by simp [plainMnemonics]) (percent_notMem_jump link base) hjump
    rw [← hbits', ← hlength']
    simp only [relocate, Encoded.item?, hreloc]
    rfl
  obtain ⟨placed, hrun⟩ := runStep_of_item? hupper hitem pseudo
  rw [leftBy_runSteps_cons, hrun]
  dsimp only
  generalize hfirst : Item.data ((upperWord base).toBytes 4) _ = first
  obtain ⟨placed', hrun'⟩ :=
    @runStep_of_item? "jalr" _ none (s.withItem first) jump _ hjump hitem' pseudo
  rw [leftBy_runSteps_cons, hrun']
  rfl

/-- **An expansion leaves room for its relocations**, and places no branch. -/
theorem appends_expand (hset : Setting s.catalogs (s.context true)) {e : Encoded}
    (h : Matched s.catalogs.instructions (s.context true) e) {kind : PseudoKind}
    (hkind : e.template.pseudo = some kind)
    (hcall : kind = .call → ∀ r, e.reloc = some r → r = .call ∨ r = .callPlt) :
    Appends (fun _ => 0) s (leftBy (expand kind e) s) := by
  obtain ⟨hmem, heligible, ⟨text, e₀, hencode, hbits⟩, hleft⟩ :=
    h.of_build (build_of_standard hset.standard).1 fun t ht =>
      (Template.regular_of_mem ht).defersOnce
  cases hexpand : kind.expand e s.isa.xlen s.options.pic s.labels.nextUpper with
  | error cause =>
    refine .of_same ?_
    unfold leftBy
    rw [expand_eq, hexpand]
  | ok outcome =>
    obtain ⟨steps, next⟩ := outcome
    obtain ⟨imm, himm, hsteps⟩ := PseudoKind.steps_of_expand hexpand
    rw [leftBy_expand hexpand]
    rw [himm] at hleft
    by_cases hkind' : kind = .call
    · subst hkind'
      cases hsteps
      obtain ⟨name, addend, rfl, hreloc⟩ :=
        Template.symbol_of_leftover (Template.isExpandable_of_mem hmem hkind) (fun h => by cases h)
          hleft
      have hregister := Encoded.legible_register hmem hkind hencode hbits
      simp only [Encoded.register] at hregister
      rw [leftBy_call (s := s.withUpper s.labels.nextUpper) hset e.template.mnemonic
        (hregister .rd (by simp [Template.integerFields]))
        (hregister .rs1 (by simp [Template.integerFields])) hreloc name addend, Appends,
        toList_withItem, toList_withItem, List.append_assoc]
      refine ⟨_, rfl, ⟨.call ?_ ?_ ?_, .plain, trivial⟩, ?_⟩
      · cases hr : e.reloc with
        | none => exact .inl rfl
        | some r => exact hcall rfl r hr
      · exact Field.toNat_extract_lt_32 rfl _
      · exact Field.toNat_extract_lt_32 rfl _
      · simp [Item.strayBits]
    · have hclear := clear_of_steps hset hmem hkind hkind' heligible hencode hbits hsteps
      exact appends_runSteps (s := s.withUpper next) e.template.mnemonic hclear

end

/-! ### Calls -/

/-- The bits that the instruction of a call has in the field of its relocation once it is widened. -/
def Call.strayBits (c : Call) (kind : RelocType) : Word :=
  (c.encoded?.map (·.strayBits kind)).getD 0

/-- A compressed branch given field by field, with a word of another kind. -/
def Call.Misnamed (c : Call) : Prop :=
  ∃ text e k, c.written = .fields text ∧ c.encoded? = some e ∧
    e.reloc = some (BranchKind.reloc k) ∧ k.isMisnamed e.bits = true

section

variable {c : Call} {e : Encoded}

theorem Call.strayBits_eq (h : c.encoded? = some e) (kind : RelocType) :
    c.strayBits kind = e.strayBits kind := by
  unfold Call.strayBits
  rw [h]
  rfl

theorem matched_named {catalog : Catalog} {ctx : Context} {mnemonic : String} {text : List Char}
    (h : catalog.encode ctx mnemonic text = .ok e) (n : Nat) : Matched catalog ctx (e.named n) := by
  refine ⟨mnemonic, text, e, h, ?_⟩
  unfold Encoded.named Encoded.dotAddend?
  split
  · exact .inl rfl
  · rename_i addend hdot
    split at hdot
    · rename_i name addend' himm
      split at hdot
      · cases hdot
        exact .inr ⟨name, _, addend, himm, rfl⟩
      · cases hdot
    · cases hdot

/-- What is not expanded was encoded by a template of its catalog that is no pseudo-instruction. -/
theorem Call.template_of_encoded? (hcs : Catalogs.standard = .ok c.before.catalogs)
    (hexpands : c.expands = false) (he : c.encoded? = some e) :
    e.template ∈ c.before.catalogs.instructions.templates ++ c.before.catalogs.fieldTypes.templates ∧
      e.template.isPseudo = false ∧ e.template.eligible (c.before.context true) = true ∧
      ∃ text, e.template.encode (c.before.context true) text = .ok e := by
  obtain ⟨hinstructions, hfieldTypes⟩ := build_of_standard hcs
  obtain ⟨text, hencode⟩ := c.encode_of_encoded? he
  rw [Catalog.templates_eq_map hinstructions, Catalog.templates_eq_map hfieldTypes]
  unfold Call.expands at hexpands
  cases hwritten : c.written with
  | instruction mnemonic operands =>
    rw [hwritten] at hencode hexpands
    rw [he] at hexpands
    obtain ⟨hmem, heligible, hencode⟩ := Catalog.exists_of_encode hinstructions hencode
    exact ⟨List.mem_append_left _ hmem, hexpands, heligible, text, hencode⟩
  | fields fields =>
    rw [hwritten] at hencode
    obtain ⟨hmem, heligible, hencode⟩ := Catalog.exists_of_encode hfieldTypes hencode
    have hreal := of_mem_fieldTypes (!·.isPseudo) (by decide +kernel) hmem
    exact ⟨List.mem_append_right _ hmem, by simpa using hreal, heligible, text, hencode⟩

/-- **What a call appends** leaves room for its relocations. -/
theorem Call.appends {cs : Catalogs} (hcs : Catalogs.standard = .ok cs)
    (h : Settled cs .basic false c.before) : Appends c.strayBits c.before c.after := by
  replace hcs : Catalogs.standard = .ok c.before.catalogs := h.catalogs ▸ hcs
  rcases c.after_cases with hidles | ⟨e, s₁, he, hidles, hcontext, -, -, hafter⟩
  · exact .of_same hidles.same
  rw [hafter, funext (c.strayBits_eq he)]
  refine .of_idles hidles ?_
  by_cases hexpands : c.expands = true
  · obtain ⟨mnemonic, operands, kind, hwritten, hkind, hassemble⟩ := c.assemble_of_expands hexpands he
    obtain ⟨text, hencode⟩ := c.encode_of_encoded? he
    rw [hwritten] at hencode
    have hmatched := matched_named hencode c.before.labels.nextDot
    have hset : Setting c.before.catalogs (c.before.context true) :=
      ⟨hcs, h.evaluator, h.has_base⟩
    have hnone : e.strayBits = fun _ => 0 := by
      obtain ⟨hmem, -, hencode⟩ := Catalog.exists_of_encode (build_of_standard hcs).1 hencode
      have hleft := Template.leftover_of_encode (Template.regular_of_mem hmem).defersOnce hencode
      exact funext (Encoded.strayBits_of_pseudo hmem hkind hleft)
    rw [← hidles.catalogs, ← hcontext] at hset hmatched
    rw [hassemble, hnone]
    refine appends_expand hset hmatched (by rw [Encoded.template_named, hkind]) ?_
    rintro rfl r hr
    rw [Encoded.reloc_named] at hr
    exact call_of_encode hcs hencode hkind hr
  · have hreal : c.expands = false := by simpa using hexpands
    obtain ⟨hmem, hpseudo, -, text, hencode⟩ := c.template_of_encoded? hcs hreal he
    have hclear : e.Clear := fun kind hkind =>
      Template.clear_of_encode hcs hmem hpseudo hencode hkind
    rw [c.leftBy_assemble hreal he]
    cases hitem : (e.named c.before.labels.nextDot).item? s₁.options.relax with
    | none =>
      obtain ⟨er, -, her⟩ := place_of_item?_eq_none hitem
      rw [leftBy_of_error her]
      exact .of_same rfl
    | some item =>
      obtain ⟨placed, hplaced⟩ := place_of_item? hitem
      obtain ⟨hfits, hsame⟩ := (hclear.named c.before.labels.nextDot).fits hitem
      rw [leftBy_of_ok hplaced]
      refine ⟨[item], toList_withItem s₁ item, ⟨hfits, trivial⟩, ?_⟩
      intro item' hitem' kind
      rw [List.mem_singleton.1 hitem', hsame, Encoded.strayBits_named]

/-- **Only misnamed branches have stray bits.** -/
theorem Call.misnamed_of_strayBits (hcs : Catalogs.standard = .ok c.before.catalogs)
    {kind : RelocType} (h : c.strayBits kind ≠ 0) : c.Misnamed := by
  cases he : c.encoded? with
  | none =>
    unfold Call.strayBits at h
    rw [he] at h
    exact absurd rfl h
  | some e =>
    rw [c.strayBits_eq he] at h
    obtain ⟨text, hencode⟩ := c.encode_of_encoded? he
    obtain ⟨k, hreloc, hmisnamed⟩ : ∃ k, e.reloc = some (BranchKind.reloc k) ∧
        k.isMisnamed e.bits = true := by
      unfold Encoded.strayBits at h
      split at h
      · rename_i k hk
        obtain ⟨r, hreloc, hk⟩ := Option.bind_eq_some_iff.1 hk
        obtain rfl := BranchKind.ofReloc?_eq_some_iff.1 hk
        exact ⟨k, hreloc, BranchKind.isMisnamed_of_strayBits h⟩
      · exact absurd rfl h
    cases hwritten : c.written with
    | fields fields => exact ⟨fields, e, k, hwritten, he, hreloc, hmisnamed⟩
    | instruction mnemonic operands =>
      exfalso
      rw [hwritten] at hencode
      have hbuild := (build_of_standard hcs).1
      obtain ⟨hmem, -, hencode⟩ := Catalog.exists_of_encode hbuild hencode
      have hleft := Template.leftover_of_encode (Template.regular_of_mem hmem).defersOnce hencode
      cases hpseudo : e.template.pseudo with
      | some pseudo => exact h (Encoded.strayBits_of_pseudo hmem hpseudo hleft kind)
      | none =>
        have hvalid := Catalog.validate_of_mem hbuild (Catalog.templates_eq_map hbuild ▸ hmem)
        rw [hreloc] at hleft
        generalize e.imm = imm at hleft
        cases hleft with
        | symbol _ _ _ hbranch =>
          have htarget := hbranch k (BranchKind.ofReloc?_eq_some_iff.2 rfl)
          have hown := Template.isMisnamed_of_encode hmem (by rw [Template.isPseudo, hpseudo]; rfl)
            hvalid htarget hencode
          rw [hown] at hmisnamed
          cases hmisnamed

end

/-! ### Runs -/

theorem linkable_flatMap {run : List Call} (h : ∀ c ∈ run, Linkable c.items) :
    Linkable (run.flatMap Call.items) := by
  induction run with
  | nil => trivial
  | cons c run ih =>
    obtain ⟨hc, hrun⟩ := List.forall_mem_cons.1 h
    rw [List.flatMap_cons]
    exact hc.append (ih hrun)

/-- **All the items of a run leave room for their relocations.** -/
theorem linkable_of_passes {cs : Catalogs} (hcs : Catalogs.standard = .ok cs) {start s : Session}
    (hempty : start.contents.items = #[]) {run : List Call}
    (h : Passes (Settled cs .basic false) start run s) : Linkable s.contents.items.toList := by
  have hgrows : ∀ c : Call, Settled cs .basic false c.before → Grows c.before c.after :=
    fun c hc => grows_call hcs hc
  rw [h.items hgrows, hempty]
  refine linkable_flatMap fun c hc => ?_
  obtain ⟨new, hitems, hroom, -⟩ := c.appends hcs (h.of_mem hgrows hc).2.1
  rw [Call.items, hitems, ← Array.length_toList, List.drop_left]
  exact hroom

open Expansion in
/-- What a linker finds in the layout of a run, given the addresses of its items. The relocations are
for bytes of the layout and no two of them are for the same. The field of each one is clear, but for
the distance of a branch, if that is known and in reach, and for stray bits of a misnamed branch. The
bytes of a call are those of an upper part and a jump through the same register. -/
structure Linked (run : List Call) (address : Nat → Nat) (l : Layout) : Prop where
  apart : l.proper.Pairwise fun r r' => r.offset + r.kind.info.size ≤ r'.offset
  within : ∀ r ∈ l.proper, r.offset + r.kind.info.size ≤ l.bytes.length
  fields : ∀ r ∈ l.proper, ∃ c ∈ run, c.Owns address r ∧
    l.wordAt r.offset r.kind.info.size &&& r.kind.info.mask =
      l.fieldOf r ||| c.strayBits r.kind ∧
    (c.strayBits r.kind ≠ 0 → c.Misnamed)
  calls : ∀ r ∈ l.proper, r.kind = .call ∨ r.kind = .callPlt → ∃ link base, link < 32 ∧ base < 32 ∧
    (l.bytes.drop r.offset).take 4 = (upperWord base).toBytes 4 ∧
    (l.bytes.drop (r.offset + 4)).take 4 = (jumpWord link base).toBytes 4

/-- **Relocations have fields of their own**, in every layout of a run with the basic evaluator,
whatever it was asked for and whatever failed. -/
theorem relocations_have_fields_of_their_own {cs : Catalogs} (hcs : Catalogs.standard = .ok cs)
    {config : Config} {start : Session} (hnew : Session.new cs config = .ok start)
    {requests : List Request} (hbasic : ∀ ev, .useEvaluator ev ∈ requests → ev = .basic)
    {l : Layout} (hfinish : (requests.foldl Request.run start).finish = .ok l) :
    Linked (calls start requests)
      (startOf (requests.foldl Request.run start).contents.layout.1.items.toList) l := by
  obtain ⟨mid, pieces, hlaid⟩ := exists_laidOut_of_finish hfinish
  have htrace := trace_of_new hcs hnew requests
  have hpasses := passes_run_of_keeps hcs (settled_new hnew false) hbasic
  have hempty : start.contents.items = #[] := congrArg Section.items (empty_of_new hnew).1
  generalize requests.foldl Request.run start = s at hlaid hfinish htrace hpasses ⊢
  have hlink := linkable_of_passes hcs hempty hpasses
  obtain ⟨hapart, hwithin⟩ := hlaid.pairwise_proper hlink
  refine ⟨hapart, hwithin, ?_, fun r hr hkind => hlaid.bytes_of_call hlink hr hkind⟩
  intro r hr
  obtain ⟨i, item, hi, hle, hlt, hword⟩ := hlaid.wordAt_and_mask hlink htrace.bounded hr
  have hfirst : start.contents.items.size ≤ i := by
    rw [hempty]
    exact Nat.zero_le i
  have hlast : i < s.contents.items.size := (List.getElem?_eq_some_iff.1 hi).1
  obtain ⟨c, hc, hbefore, hafter⟩ := hpasses.exists_of_lt hfirst hlast
  have hsettled := (hpasses.of_mem (fun c hc => grows_call hcs hc) hc).2.1
  obtain ⟨new, hitems, -, hstray⟩ := c.appends hcs hsettled
  have hown : item ∈ new := by
    have hi' := c.getElem?_of_owns (htrace.calls c hc).2.2 hi hafter
    rw [hitems, List.getElem?_append_right (by simpa using hbefore)] at hi'
    exact List.mem_of_getElem? hi'
  refine ⟨c, hc, ⟨?_, ?_⟩, ?_, ?_⟩
  · exact Nat.le_trans (startOf_mono _ hbefore) hle
  · exact Nat.lt_of_lt_of_le hlt (startOf_mono _ hafter)
  · rw [hword, hstray item hown]
  · exact c.misnamed_of_strayBits (hsettled.catalogs ▸ hcs)

/-- A branch to its own place and a call. -/
def branchAndCall : List Request :=
  [.line "a: beqz a1, a".toList, .instruction "call" "f".toList]

/-- The section of a branch to its own place and a call. -/
def branchAndCallSection : Section :=
  ⟨#[.branch (.new .shortBranch 0xc181 "a" 0) true,
      .data [0x97, 0x00, 0x00, 0x00] (some ⟨.call, .symbol "f" 0, true⟩),
      .data [0xe7, 0x80, 0x00, 0x00] none],
    (∅ : Std.TreeMap String Nat).insert "a" 0⟩

theorem contents_of_branchAndCall {cs : Catalogs} (hcs : Catalogs.standard = .ok cs) :
    let s := branchAndCall.foldl Request.run (generalStart cs)
    s.contents = branchAndCallSection ∧ s.labels.pending = #[] := by
  have hbranch : (cs.instructions.encode ⟨generalIsa, true, false, true, .basic⟩ "beqz"
      "a1, a".toList).toOption.map Encoded.outline =
        some (none, 0xc181#64, some (.symbol "a" 0), some .rvcBranch) := by
    rw [Catalog.encode, lookup_standard hcs]
    decide +kernel
  have hcall : (cs.instructions.encode ⟨generalIsa, true, false, true, .basic⟩ "call"
      "f".toList).toOption.map Encoded.outline =
        some (some .call, 0x8080#64, some (.symbol "f" 0), some .call) := by
    rw [Catalog.encode, lookup_standard hcs]
    decide +kernel
  have hread : Line.read "a: beqz a1, a".toList =
      ⟨[.named "a"], .instruction "beqz" "a1, a".toList⟩ := by decide +kernel
  have hline : line "a: beqz a1, a".toList (generalStart cs) =
      .ok () ((labelled cs).withBranch .shortBranch 0xc181 "a" 0) :=
    line_of_instruction hread (forM_addLabel cs) (resolve_of_plain (by decide +kernel) _) hbranch
      (by decide) rfl
  obtain ⟨e, he, houtline⟩ := Option.map_eq_some_iff.1 hcall
  obtain ⟨hpseudo, hbits, himm, hreloc⟩ : e.template.pseudo = some .call ∧ e.bits = 0x8080#64 ∧
      e.imm = some (.symbol "f" 0) ∧ e.reloc = some .call := by
    simpa [Encoded.outline] using houtline
  let s₁ := (labelled cs).withBranch .shortBranch 0xc181 "a" 0
  have hencode : encodeIn Catalogs.instructions "call" "f".toList s₁ = .ok e s₁ :=
    encodeIn_of_encode (resolve_of_plain (by decide +kernel) _) (eq_ok_of_toOption he) himm
      (by decide)
  have hexpand : PseudoKind.call.expand e s₁.isa.xlen s₁.options.pic s₁.labels.nextUpper =
      .ok ([.insn "auipc" (Expansion.withZero 1) (some (.call, .symbol "f" 0)),
        .insn "jalr" (Expansion.integer 1 ++ ", ".toList ++ Expansion.integer 1) none], 0) := by
    unfold PseudoKind.expand
    rw [himm]
    dsimp only [PseudoKind.steps]
    rw [hbits, hreloc]
    rfl
  have hbase : generalIsa.has "i" = true := by decide +kernel
  have hset : Setting cs (s₁.context true) := ⟨hcs, rfl, hbase⟩
  have hregister : (Token.register .integer 1).Legible (s₁.context true) :=
    ⟨by decide, fun h => by cases h⟩
  have hleft := leftBy_call (s := s₁.withUpper 0) hset e.template.mnemonic hregister hregister
    (rfl : BranchKind.ofReloc? .call = none) "f" 0
  intro s
  have hs : s = leftBy (instruction "call" "f".toList) (leftBy (line "a: beqz a1, a".toList)
    (generalStart cs)) := rfl
  unfold instruction at hs
  rw [leftBy_of_ok hline, leftBy_bind, hencode] at hs
  dsimp only at hs
  rw [hpseudo] at hs
  dsimp only at hs
  rw [leftBy_expand hexpand, hleft] at hs
  rw [hs]
  exact ⟨rfl, rfl⟩

/-- A branch to its own place, whose distance is filled in, and a call. -/
theorem relocations_have_fields_of_their_own_call :
    ∃ cs start l, Catalogs.standard = .ok cs ∧
      Session.new cs (.ofArch "rv64gc".toList) = .ok start ∧
      (∀ ev, .useEvaluator ev ∈ branchAndCall → ev = .basic) ∧
      (branchAndCall.foldl Request.run start).finish = .ok l ∧
      l.proper.map (·.kind) = [.rvcBranch, .call] ∧
      Linked (calls start branchAndCall)
        (startOf (branchAndCall.foldl Request.run start).contents.layout.1.items.toList) l := by
  obtain ⟨cs, hcs⟩ := Catalogs.exists_standard
  obtain ⟨hcontents, hpending⟩ := contents_of_branchAndCall hcs
  have hlayout : branchAndCallSection.layout.2.toOption.map (fun l => l.proper.map (·.kind)) =
      some [.rvcBranch, .call] := by decide +kernel
  obtain ⟨l, hl, hkinds⟩ := Option.map_eq_some_iff.1 hlayout
  have hbasic : ∀ ev, .useEvaluator ev ∈ branchAndCall → ev = .basic := by
    intro ev hmem
    simp [branchAndCall] at hmem
  have hfinish : (branchAndCall.foldl Request.run (generalStart cs)).finish = .ok l := by
    rw [finish_of_pending hpending, hcontents]
    exact eq_ok_of_toOption hl
  exact ⟨cs, generalStart cs, l, hcs, new_general cs, hbasic, hfinish, hkinds,
    relocations_have_fields_of_their_own hcs (new_general cs) hbasic hfinish⟩

/-! ### A misnamed branch -/

/-- The section of `.insn cj 1, 6, foo`. -/
def misnamedJump : Section :=
  ⟨#[.branch (.new .shortJump 0xc001 "foo" 0) true], ∅⟩

/-- **A field that is not clear.** A compressed jump with the word of a branch on `s0` is widened to
that branch, and its register is in the field of the relocation of a jump. -/
theorem widened_jump_has_stray_bits :
    ∃ cs start s l r, Catalogs.standard = .ok cs ∧
      Session.new cs (.ofArch "rv64gc".toList) = .ok start ∧
      line ".insn cj 1, 6, foo".toList start = .ok () s ∧ s.finish = .ok l ∧
      l.fixups = [r] ∧ r.kind = .jal ∧ l.fieldOf r = 0 ∧
      l.wordAt r.offset r.kind.info.size &&& r.kind.info.mask = 0x40000 := by
  obtain ⟨cs, hcs⟩ := Catalogs.exists_standard
  have hfields : (cs.fieldTypes.encode ⟨generalIsa, true, false, true, .basic⟩ "cj"
      "1, 6, foo".toList).toOption.map Encoded.outline =
        some (none, 0xc001#64, some (.symbol "foo" 0), some .rvcJump) := by
    rw [Catalog.encode, Catalog.lookup_eq_filter (build_of_standard hcs).2,
      Catalog.templates_eq_map (build_of_standard hcs).2]
    decide +kernel
  have hread : Line.read ".insn cj 1, 6, foo".toList = ⟨[], .fields "cj 1, 6, foo".toList⟩ := by
    decide +kernel
  have hword : Text.firstWord "cj 1, 6, foo".toList = ("cj".toList, "1, 6, foo".toList) := by
    decide +kernel
  have hline : line ".insn cj 1, 6, foo".toList (generalStart cs) =
      .ok () ((generalStart cs).withBranch .shortJump 0xc001 "foo" 0) :=
    line_of_fields hread rfl hword rfl (resolve_of_plain (by decide +kernel) _) hfields (by decide)
      rfl
  have hlayout : misnamedJump.layout.2.toOption =
      some ⟨[0x63, 0x00, 0x04, 0x00], [⟨0, .jal, some "foo", 0⟩], []⟩ := by decide +kernel
  have hfinish : ((generalStart cs).withBranch .shortJump 0xc001 "foo" 0).finish =
      .ok ⟨[0x63, 0x00, 0x04, 0x00], [⟨0, .jal, some "foo", 0⟩], []⟩ := by
    rw [finish_of_pending rfl]
    exact eq_ok_of_toOption hlayout
  refine ⟨cs, _, _, _, _, hcs, new_general cs, hline, hfinish, rfl, rfl, rfl, ?_⟩
  decide

end Session

end RiscvAssembler
