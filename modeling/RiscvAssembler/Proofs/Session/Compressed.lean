import RiscvAssembler.Proofs.Pseudo.Real
import RiscvAssembler.Proofs.Session.Linkage
import RiscvAssembler.Proofs.Session.Settings

/-!
Compressed items of a session. Every instruction of two bytes, in both tables, is of a compressed
class, which has to be in the instruction set and switched on. So a call places compressed items only
where they are allowed (`Call.allowed`). The options of a session and all that it saved have
compressed instructions on only if the object file is marked for them (`Announces`), and this mark is
never taken back.
-/

namespace RiscvAssembler

/-- Whether an item is an instruction of two bytes, or a branch that may become one. -/
def Item.isCompressed : Item → Bool
  | .data bytes _ => bytes.length == 2
  | .branch b _ => b.kind.isShort

/-! ### Instructions of two bytes -/

section

variable {cs : Catalogs} {ctx : Context}

/-- Whether the class of an instruction is a compressed one if its length is. -/
def Template.classFits (t : Template) : Bool :=
  t.isPseudo || t.length != 2 || t.needs.isCompressed

theorem Template.classFits_of_mem_standard (hcs : Catalogs.standard = .ok cs) {t : Template}
    (ht : t ∈ cs.instructions.templates ++ cs.fieldTypes.templates) : t.classFits = true :=
  of_mem_standard hcs classFits (by decide +kernel) ht

/-- **Where an instruction of two bytes may be chosen.** -/
theorem Template.allowed_of_eligible (hcs : Catalogs.standard = .ok cs) {t : Template}
    (ht : t ∈ cs.instructions.templates ++ cs.fieldTypes.templates) (hreal : t.isPseudo = false)
    (h : t.eligible ctx = true) (hlength : t.length = 2) :
    ctx.allowCompressed = true ∧ ctx.rvc = true ∧ ctx.isa.has "c" = true := by
  have hclass := classFits_of_mem_standard hcs ht
  simp only [classFits, hreal, hlength, bne_self_eq_false, Bool.false_or] at hclass
  simp only [eligible, isCompressed, hreal, hlength, Bool.and_eq_true] at h
  obtain ⟨⟨-, hneeds⟩, hallow⟩ := h
  exact ⟨by simpa using hallow, InstructionClass.compressed_of_isPartOf hclass hneeds⟩

/-- A compressed item is that of an instruction of two bytes. -/
theorem Encoded.length_of_isCompressed (hcs : Catalogs.standard = .ok cs) {e e' : Encoded}
    (ht : e.template ∈ cs.instructions.templates ++ cs.fieldTypes.templates)
    (hreal : e.template.isPseudo = false) {text : List Char}
    (h : e.template.encode ctx text = .ok e) (htemplate : e'.template = e.template)
    (hreloc : e'.reloc = e.reloc) {relax : Bool} {item : Item}
    (hitem : e'.item? relax = some item) (hcompressed : item.isCompressed = true) :
    e.template.length = 2 := by
  have hbytes : e'.toBytes.length = e.template.length := by
    rw [toBytes, Word.length_toBytes, length, htemplate]
  unfold item? at hitem
  split at hitem
  · cases hitem
    rw [← hbytes]
    exact beq_iff_eq.1 hcompressed
  · rename_i kind name addend hkind himm
    split at hitem
    · rename_i k hk
      cases hitem
      obtain rfl := BranchKind.ofReloc?_eq_some_iff.1 hk
      obtain ⟨-, hsize, -⟩ := Template.clear_of_encode hcs ht hreal h (hreloc.symm.trans hkind)
      rw [← hsize]
      change k.isShort = true at hcompressed
      cases k with
      | shortBranch | shortJump => rfl
      | branch | jump => cases hcompressed
    · cases hitem
      rw [← hbytes]
      exact beq_iff_eq.1 hcompressed
  · cases hitem

end

/-- Only calls and the two parts of an address are relocated in expansions, and these are no
branches. -/
theorem PseudoKind.ofReloc?_of_expand {kind : PseudoKind} {e : Encoded} {xlen : Xlen} {pic : Bool}
    {next next' : Nat} {steps : List Step} (h : kind.expand e xlen pic next = .ok (steps, next'))
    (hcall : kind = .call → ∀ r, e.reloc = some r → r = .call ∨ r = .callPlt) {mnemonic : String}
    {operands : List Char} {r : RelocType} {target : Expr}
    (hmem : .insn mnemonic operands (some (r, target)) ∈ steps) : BranchKind.ofReloc? r = none := by
  obtain ⟨imm, -, hforms⟩ := forms_of_expand h
  cases hforms with
  | constant =>
    obtain ⟨c, -, hc⟩ := List.mem_map.1 hmem
    cases hc
  | parts _ high takesLow =>
    simp only [Expansion.throughUpper, List.mem_cons, List.not_mem_nil, or_false, reduceCtorEq,
      false_or, Step.insn.injEq, Option.some.injEq, Prod.mk.injEq] at hmem
    rcases hmem with ⟨-, -, rfl, -⟩ | ⟨-, -, rfl, -⟩
    · exact RelocType.ofReloc?_of_isUpperPart high
    · exact RelocType.ofReloc?_of_isLowPart takesLow.isLowPart
  | call =>
    simp only [List.mem_cons, List.not_mem_nil, or_false, Step.insn.injEq, Option.some.injEq,
      Prod.mk.injEq, reduceCtorEq, and_false] at hmem
    obtain ⟨-, -, rfl, -⟩ := hmem
    cases hreloc : e.reloc with
    | none => rfl
    | some r =>
      rcases hcall rfl r hreloc with rfl | rfl
      · rfl
      · rfl

namespace Session

/-! ### Calls -/

/-- Compressed instructions are on, and the instruction set has them. -/
structure Compresses (s : Session) : Prop where
  on : s.options.rvc = true
  subset : s.isa.has "c" = true

section

variable {s : Session} {c : Call}

/-- The steps of an expansion are compressed only where that is allowed, and none of them that has a
relocation. -/
theorem allowed_of_expand (hcs : Catalogs.standard = .ok s.catalogs)
    (hev : s.evaluator.ReadsOffsets) {kind : PseudoKind} {e : Encoded}
    (ht : e.template ∈ standardTemplates) (hkind : e.template.pseudo = some kind)
    (hcall : kind = .call → ∀ r, e.reloc = some r → r = .call ∨ r = .callPlt) :
    ∃ new, (leftBy (expand kind e) s).contents.items.toList = s.contents.items.toList ++ new ∧
      ∀ item ∈ new, item.isCompressed = true → s.Compresses := by
  refine items_expand ?_
  intro steps next hexpand mnemonic operands reloc hstep e' item hencode hitem hcompressed
  obtain ⟨imm, -, hsteps⟩ := PseudoKind.steps_of_expand hexpand
  have hreal : e'.template.isPseudo = false :=
    real_of_steps hcs hev ht hkind hsteps _ hstep _ e' rfl hencode
  obtain ⟨hmem, heligible, hencode⟩ := Catalog.exists_of_encode (build_of_standard hcs).1 hencode
  have hmem' : e'.template ∈ s.catalogs.instructions.templates ++ s.catalogs.fieldTypes.templates :=
    List.mem_append_left _ (templates_standard hcs ▸ hmem)
  cases reloc with
  | none =>
    have hlength := Encoded.length_of_isCompressed hcs hmem' hreal hencode rfl rfl hitem hcompressed
    obtain ⟨-, hon, hsubset⟩ := Template.allowed_of_eligible hcs hmem' hreal heligible hlength
    exact ⟨hon, hsubset⟩
  | some r =>
    -- A step with a relocation is encoded with the compressed forms left out.
    obtain ⟨r, target⟩ := r
    have hbranch := PseudoKind.ofReloc?_of_expand hexpand hcall hstep
    obtain ⟨-, rfl⟩ := item?_relocate hbranch hitem
    have hlength : e'.template.length = 2 := by
      change (e'.toBytes.length == 2) = true at hcompressed
      rw [Encoded.toBytes, Word.length_toBytes] at hcompressed
      exact beq_iff_eq.1 hcompressed
    obtain ⟨hallow, -⟩ := Template.allowed_of_eligible hcs hmem' hreal heligible hlength
    cases hallow

/-- **A call places compressed items only where they are allowed.** -/
theorem Call.allowed (hcs : Catalogs.standard = .ok c.before.catalogs)
    (hev : c.before.evaluator.ReadsOffsets) :
    ∃ new, c.after.contents.items.toList = c.before.contents.items.toList ++ new ∧
      ∀ item ∈ new, item.isCompressed = true → c.before.Compresses := by
  rcases c.after_cases with hidles | ⟨e, s₁, he, hidles, hcontext, -, -, hafter⟩
  · exact ⟨[], by rw [hidles.same, List.append_nil], List.forall_mem_nil _⟩
  have hisa : s₁.isa = c.before.isa := congrArg Context.isa (hcontext true)
  have hrvc : s₁.options.rvc = c.before.options.rvc := congrArg Context.rvc (hcontext true)
  have hev₁ : s₁.evaluator = c.before.evaluator := congrArg Context.evaluator (hcontext true)
  rw [hafter, ← hidles.same]
  by_cases hexpands : c.expands = true
  · obtain ⟨mnemonic, operands, kind, hwritten, hkind, hassemble⟩ :=
      c.assemble_of_expands hexpands he
    obtain ⟨text, hencode⟩ := c.encode_of_encoded? he
    rw [hwritten] at hencode
    obtain ⟨hmem, -, -⟩ := Catalog.exists_of_encode (build_of_standard hcs).1 hencode
    have hmem' : (e.named c.before.labels.nextDot).template ∈ standardTemplates := by
      rwa [Encoded.template_named]
    have hkind' : (e.named c.before.labels.nextDot).template.pseudo = some kind := by
      rw [Encoded.template_named, hkind]
    have hcall : kind = .call → ∀ r, (e.named c.before.labels.nextDot).reloc = some r →
        r = .call ∨ r = .callPlt := by
      rintro rfl r hr
      rw [Encoded.reloc_named] at hr
      exact call_of_encode hcs hencode hkind hr
    rw [hassemble]
    obtain ⟨new, hnew, hall⟩ :=
      allowed_of_expand (s := s₁) (hidles.catalogs ▸ hcs) (hev₁ ▸ hev) hmem' hkind' hcall
    refine ⟨new, hnew, fun item hitem hcompressed => ?_⟩
    obtain ⟨hon, hsubset⟩ := hall item hitem hcompressed
    exact ⟨hrvc ▸ hon, hisa ▸ hsubset⟩
  · have hreal : c.expands = false := by simpa using hexpands
    obtain ⟨hmem, hpseudo, heligible, text, hencode⟩ := c.template_of_encoded? hcs hreal he
    rw [c.leftBy_assemble hreal he]
    refine items_place fun item hitem hcompressed => ?_
    have hlength := Encoded.length_of_isCompressed hcs hmem hpseudo hencode
      (Encoded.template_named e _) (Encoded.reloc_named e _) hitem hcompressed
    obtain ⟨-, hon, hsubset⟩ := Template.allowed_of_eligible hcs hmem hpseudo heligible hlength
    exact ⟨hon, hsubset⟩

end

/-! ### Marked object files -/

/-- The options at hand and all that were saved have compressed instructions on only if the object
file is marked for them, and so do the items. -/
structure Announces (cs : Catalogs) (s : Session) : Prop where
  catalogs : s.catalogs = cs
  evaluator : s.evaluator.ReadsOffsets
  options : ∀ o ∈ s.options :: s.saved, o.rvc = true → s.compressedSeen = true
  items : ∀ item ∈ s.contents.items.toList, item.isCompressed = true → s.compressedSeen = true

section

variable {cs : Catalogs} {s s' : Session}

/-- With the same settings, all is announced if new items are compressed only while that is on. -/
theorem Announces.of_settings (h : Announces cs s) (hsettings : s'.settings = s.settings)
    {new : List Item} (hitems : s'.contents.items.toList = s.contents.items.toList ++ new)
    (hnew : ∀ item ∈ new, item.isCompressed = true → s.options.rvc = true) : Announces cs s' := by
  have hseen : s'.compressedSeen = s.compressedSeen := congrArg Settings.compressedSeen hsettings
  have hoptions : s'.options = s.options := congrArg Settings.options hsettings
  have hsaved : s'.saved = s.saved := congrArg Settings.saved hsettings
  have hev : s'.evaluator = s.evaluator := congrArg Settings.evaluator hsettings
  refine ⟨(congrArg Settings.catalogs hsettings).trans h.catalogs, hev ▸ h.evaluator, ?_, ?_⟩
  · rw [hoptions, hsaved, hseen]
    exact h.options
  · intro item hitem hcompressed
    rw [hseen]
    rw [hitems] at hitem
    rcases List.mem_append.1 hitem with hold | hitem
    · exact h.items item hold hcompressed
    · exact h.options s.options List.mem_cons_self (hnew item hitem hcompressed)

theorem Announces.useIsa (h : Announces cs s) {arch : List Char} (hs : s.useIsa arch = .ok s') :
    Announces cs s' := by
  unfold Session.useIsa at hs
  split at hs
  · cases hs
  · rename_i isa _
    cases hs
    refine { h with options := ?_, items := ?_ }
    · intro o ho hrvc
      rcases List.mem_cons.1 ho with rfl | hsaved
      · exact Bool.or_eq_true_iff.2 (.inr hrvc)
      · exact Bool.or_eq_true_iff.2 (.inl (h.options o (List.mem_cons_of_mem _ hsaved) hrvc))
    · exact fun item hitem hcompressed =>
        Bool.or_eq_true_iff.2 (.inl (h.items item hitem hcompressed))

theorem Announces.runOption (h : Announces cs s) {command : OptionCommand}
    (hs : s.runOption command = .ok s') : Announces cs s' := by
  obtain ⟨hhere, hsaved⟩ := List.forall_mem_cons.1 h.options
  cases command with
  | rvc on =>
    cases on with
    | true =>
      cases hs
      exact { h with options := fun _ _ _ => rfl, items := fun _ _ _ => rfl }
    | false =>
      cases hs
      exact { h with options := List.forall_mem_cons.2 ⟨nofun, hsaved⟩ }
  | pic on =>
    cases hs
    exact { h with options := List.forall_mem_cons.2 ⟨hhere, hsaved⟩ }
  | relax on =>
    cases hs
    exact { h with options := List.forall_mem_cons.2 ⟨hhere, hsaved⟩ }
  | push =>
    cases hs
    exact { h with options := List.forall_mem_cons.2 ⟨hhere, h.options⟩ }
  | pop =>
    unfold Session.runOption at hs
    dsimp only at hs
    split at hs
    · cases hs
    · -- The options that come back were on the stack all the time.
      rename_i options rest hstack
      cases hs
      exact { h with options := hstack ▸ hsaved }

/-- **Every step of a run keeps compressed instructions announced.** -/
theorem kept_announces (hcs : Catalogs.standard = .ok cs) : Kept (Announces cs) where
  labels s labels h := by
    have hintact := intact_forM_addLabel labels s
    have hitems : (leftBy (labels.forM addLabel) s).contents.items.toList =
        s.contents.items.toList ++ [] := by rw [hintact.items, List.append_nil]
    exact h.of_settings hintact.settings hitems (List.forall_mem_nil _)
  call c h := by
    obtain ⟨new, hitems, hnew⟩ := c.allowed (h.catalogs ▸ hcs) h.evaluator
    exact h.of_settings ((keeps_written c.written).leftBy c.before) hitems
      fun item hitem hcompressed => (hnew item hitem hcompressed).on
  useIsa s s' arch h hs := h.useIsa hs
  declareArch s s' arch h hs := by
    unfold Session.declareArch at hs
    split at hs
    · cases hs
    · cases hisa : s.useIsa arch with
      | error e =>
        rw [hisa] at hs
        cases hs
      | ok s₁ =>
        rw [hisa] at hs
        cases hs
        have h₁ := h.useIsa hisa
        exact { h₁ with options := h₁.options, items := h₁.items }
  option s s' name h hs := by
    unfold Session.option at hs
    split at hs
    · cases hs
    · exact h.runOption hs

theorem announces_new {config : Config} (h : Session.new cs config = .ok s) : Announces cs s := by
  obtain ⟨s₁, hisa, h⟩ := bind_eq_ok_iff.1 h
  obtain ⟨_, -, h⟩ := bind_eq_ok_iff.1 h
  cases h
  refine Announces.useIsa ⟨rfl, Evaluator.readsOffsets_basic, ?_, List.forall_mem_nil _⟩ hisa
  exact List.forall_mem_singleton.2 nofun

/-- The mark of an object file for compressed instructions. -/
theorem objectFlags_and_one (s : Session) :
    s.objectFlags &&& 1 = if s.compressedSeen then 1 else 0 := by
  unfold objectFlags
  cases s.compressedSeen <;> cases s.isa.isReduced <;>
    cases s.config.floatAbi.getD s.isa.floatAbi <;> rfl

theorem Announces.objectFlags (h : Announces cs s)
    (hitem : ∃ item ∈ s.contents.items.toList, item.isCompressed = true) :
    s.objectFlags &&& 1 = 1 := by
  obtain ⟨item, hitem, hcompressed⟩ := hitem
  rw [objectFlags_and_one, if_pos (h.items item hitem hcompressed)]

/-- **Compressed items are allowed and announced.** Whatever is asked of a session and whatever fails,
an item that is compressed was placed by a call while compressed instructions were on and in the
instruction set, which the call did not change; and from then on the object file is marked for them.
Only evaluators that take an offset for a symbol are left out. -/
theorem compressed_items_are_allowed_and_announced {cs : Catalogs}
    (hcs : Catalogs.standard = .ok cs) {config : Config} {start : Session}
    (hnew : Session.new cs config = .ok start) {requests : List Request}
    (hev : ∀ ev, .useEvaluator ev ∈ requests → ev.ReadsOffsets) :
    (∀ (i : Nat) (item : Item),
        (requests.foldl Request.run start).contents.items.toList[i]? = some item →
        item.isCompressed = true →
        ∃ c ∈ calls start requests, c.before.contents.items.size ≤ i ∧
          c.after.contents.items.toList[i]? = some item ∧ c.after.settings = c.before.settings ∧
          c.before.Compresses) ∧
      ∀ s, (s = requests.foldl Request.run start ∨
          ∃ c ∈ calls start requests, s = c.before ∨ s = c.after) →
        (∃ item ∈ s.contents.items.toList, item.isCompressed = true) →
        s.objectFlags &&& 1 = 1 := by
  have hkept := kept_announces hcs
  obtain ⟨hcalls, hend⟩ := hkept.run (announces_new hnew) fun ev hmem s hs =>
    { hs with evaluator := hev ev hmem }
  constructor
  · intro i item hi hcompressed
    have htrace := trace_of_new hcs hnew requests
    have hempty : start.contents.items = #[] := congrArg Section.items (empty_of_new hnew).1
    have hlast : i < (requests.foldl Request.run start).contents.items.size :=
      (List.getElem?_eq_some_iff.1 hi).1
    obtain ⟨c, hc, hbefore, hafter⟩ := (passes_run hcs (settled_new hnew false) requests).exists_of_lt
      (by rw [hempty]; exact Nat.zero_le i) hlast
    have hown := c.getElem?_of_owns (htrace.calls c hc).2.2 hi hafter
    obtain ⟨new, hitems, hallowed⟩ :=
      c.allowed ((hcalls c hc).catalogs ▸ hcs) (hcalls c hc).evaluator
    refine ⟨c, hc, hbefore, hown, (keeps_written c.written).leftBy c.before,
      hallowed item ?_ hcompressed⟩
    rw [hitems, List.getElem?_append_right (by simpa using hbefore)] at hown
    exact List.mem_of_getElem? hown
  · rintro s (rfl | ⟨c, hc, rfl | rfl⟩)
    · exact hend.objectFlags
    · exact (hcalls c hc).objectFlags
    · exact (hkept.call c (hcalls c hc)).objectFlags

end

/-- A compressed branch after compressed instructions were off for a while, and off again after it. -/
def switchedOnAndOff : List Request :=
  [.option "push", .option "norvc", .option "pop"] ++ branchAndCall ++
    [.option "norvc", .useEvaluator .hex]

theorem compressed_branch_is_allowed_and_announced :
    ∃ cs, Catalogs.standard = .ok cs ∧
      let s := switchedOnAndOff.foldl Request.run (generalStart cs)
      s.options.rvc = false ∧ s.objectFlags &&& 1 = 1 ∧
        ∃ c ∈ calls (generalStart cs) switchedOnAndOff,
          c.after.contents.items.toList[0]? =
            some (.branch (.new .shortBranch 0xc181 "a" 0) true) ∧ c.before.Compresses := by
  obtain ⟨cs, hcs⟩ := Catalogs.exists_standard
  have hcontents : (switchedOnAndOff.foldl Request.run (generalStart cs)).contents =
      branchAndCallSection := (contents_of_branchAndCall hcs).1
  have hfirst : (switchedOnAndOff.foldl Request.run (generalStart cs)).contents.items.toList[0]? =
      some (.branch (.new .shortBranch 0xc181 "a" 0) true) := by
    rw [hcontents]
    rfl
  have hev : ∀ ev, .useEvaluator ev ∈ switchedOnAndOff → ev.ReadsOffsets := by
    intro ev hmem
    simp only [switchedOnAndOff, branchAndCall, List.cons_append, List.nil_append, List.mem_cons,
      reduceCtorEq, false_or, List.not_mem_nil, or_false, Request.useEvaluator.injEq] at hmem
    exact hmem ▸ Evaluator.readsOffsets_hex
  obtain ⟨hallowed, hannounced⟩ :=
    compressed_items_are_allowed_and_announced hcs (new_general cs) hev
  obtain ⟨c, hc, -, hitem, -, hcompresses⟩ := hallowed 0 _ hfirst rfl
  refine ⟨cs, hcs, rfl, hannounced _ (.inl rfl) ⟨_, List.mem_of_getElem? hfirst, rfl⟩, c, hc, hitem,
    hcompresses⟩

end Session

end RiscvAssembler
