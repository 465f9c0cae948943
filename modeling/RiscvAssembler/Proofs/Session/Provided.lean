import RiscvAssembler.Proofs.Isa.Canonical
import RiscvAssembler.Proofs.Session.Compressed

/-!
The instruction set of what a session assembled. An instruction is taken only from a template that the
instruction set at hand provides for (`Template.ProvidedBy`). It also starts the session, and no line
can set another instruction set from then on (`FixedIsa`). So all items were matched under one
instruction set, and that is the one the session reports at its end (`items_share_reported_isa`).
-/

namespace RiscvAssembler

/-! ### What templates require -/

/-- An instruction set of the width that a template is for, with all the subsets of its class. -/
structure Template.ProvidedBy (t : Template) (isa : Isa) : Prop where
  width : ∀ xlen ∈ t.width, xlen = isa.xlen
  subsets : ∀ name ∈ t.needs.subsets, isa.has name = true

theorem Template.providedBy_of_eligible {t : Template} {ctx : Context}
    (h : t.eligible ctx = true) : t.ProvidedBy ctx.isa := by
  obtain ⟨⟨hwidth, hneeds⟩, -⟩ : (t.width.all (· == ctx.isa.xlen) = true ∧
      t.needs.isPartOf ctx.isa ctx.rvc = true) ∧ _ := by
    simpa only [eligible, Bool.and_eq_true] using h
  rw [InstructionClass.isPartOf_eq, Bool.and_eq_true] at hneeds
  refine ⟨fun xlen hxlen => ?_, List.all_eq_true.1 hneeds.2⟩
  rw [Option.mem_def.1 hxlen] at hwidth
  exact beq_iff_eq.1 hwidth

theorem Catalog.eligible_of_encode {c : Catalog} {ctx : Context} {mnemonic : String}
    {operands : List Char} {e : Encoded} (h : c.encode ctx mnemonic operands = .ok e) :
    e.template.eligible ctx = true := by
  obtain ⟨t, -, heligible, hencode⟩ := exists_of_encodeWith h
  obtain ⟨-, -, -, htemplate, -⟩ := Template.exists_walk_of_encode hencode
  rwa [htemplate]

namespace Session

/-! ### Matched items -/

/-- An item that a call places, and the template that matched it: the one of the instruction that was
written, or the one of an instruction that it expands to. -/
inductive Call.Matched (c : Call) : Template → Item → Prop
  | written {e : Encoded} {item : Item} (encoded : c.encoded? = some e) (real : c.expands = false)
      (placed : (e.named c.before.labels.nextDot).item? c.before.options.relax = some item) :
      c.Matched e.template item
  | step {e e' : Encoded} {item : Item} {kind : PseudoKind} {steps : List Step} {next : Nat}
      {mnemonic : String} {operands : List Char} {reloc : Option (RelocType × Expr)}
      (encoded : c.encoded? = some e) (pseudo : e.template.pseudo = some kind)
      (expanded : kind.expand (e.named c.before.labels.nextDot) c.before.isa.xlen
        c.before.options.pic c.before.labels.nextUpper = .ok (steps, next))
      (mem : .insn mnemonic operands reloc ∈ steps)
      (matched : c.before.catalogs.instructions.encode
        (c.before.context (Step.insn mnemonic operands reloc).mayCompress) mnemonic operands = .ok e')
      (placed : (relocate e' reloc).item? c.before.options.relax = some item) :
      c.Matched e'.template item

section

variable {c : Call} {t : Template} {item : Item}

theorem Call.Matched.providedBy (h : c.Matched t item) : t.ProvidedBy c.before.isa := by
  cases h with
  | written encoded =>
    obtain ⟨text, hencode⟩ := c.encode_of_encoded? encoded
    exact Template.providedBy_of_eligible (Catalog.eligible_of_encode hencode)
  | step encoded pseudo expanded mem matched =>
    exact Template.providedBy_of_eligible (Catalog.eligible_of_encode matched)

/-- **What a call places was matched** by its template, or by the templates of what it expands to. -/
theorem Call.matched (c : Call) :
    ∃ new, c.after.contents.items.toList = c.before.contents.items.toList ++ new ∧
      ∀ item ∈ new, ∃ t, c.Matched t item := by
  rcases c.after_cases with hidles | ⟨e, s₁, he, hidles, hcontext, hupper, -, hafter⟩
  · exact ⟨[], by rw [hidles.same, List.append_nil], List.forall_mem_nil _⟩
  have hsettings : s₁.settings = c.before.settings := by
    have hassemble := (spares_assemble c.written (e.named c.before.labels.nextDot)).keeps.leftBy s₁
    rw [← hafter] at hassemble
    exact hassemble.symm.trans ((keeps_written c.written).leftBy c.before)
  have hisa : s₁.isa = c.before.isa := congrArg Settings.isa hsettings
  have hoptions : s₁.options = c.before.options := congrArg Settings.options hsettings
  rw [hafter, ← hidles.same]
  by_cases hexpands : c.expands = true
  · obtain ⟨-, -, kind, -, hkind, hassemble⟩ := c.assemble_of_expands hexpands he
    rw [hassemble]
    refine items_expand ?_
    intro steps next hexpand mnemonic operands reloc hstep e' item hencode hitem
    rw [hisa, hoptions, hupper] at hexpand
    rw [hidles.catalogs, hcontext] at hencode
    rw [hoptions] at hitem
    exact ⟨e'.template, .step he hkind hexpand hstep hencode hitem⟩
  · have hreal : c.expands = false := by simpa using hexpands
    rw [c.leftBy_assemble hreal he]
    refine items_place fun item hitem => ?_
    rw [hoptions] at hitem
    exact ⟨e.template, .written he hreal hitem⟩

end

/-! ### One instruction set -/

/-- A session that was given an instruction, with an instruction set. -/
structure FixedIsa (isa : Isa) (s : Session) : Prop where
  started : s.started = true
  isa : s.isa = isa

/-- A session with an instruction set that some string describes. -/
structure SpeltIsa (config : Config) (s : Session) : Prop where
  same : s.config = config
  spelt : ∃ arch, Isa.parse config.versionOf arch = .ok s.isa

section

variable {I : Session → Prop} {s s' : Session} {config : Config}

theorem Spares.leftBy {α : Type} {x : AssemblerM α} (h : Spares x) (hI : Steady I) (hs : I s) :
    I (leftBy x s) :=
  Yields.leftBy (h I hI) hs

theorem keptByLines_of_steady (hI : Steady I)
    (harch : ∀ s s' arch, I s → s.declareArch arch = .ok s' → I s')
    (hoption : ∀ s s' name, I s → s.option name = .ok s' → I s') : KeptByLines I where
  labels _ labels hs := (spares_forM_addLabel labels).leftBy hI hs
  call c hs := (spares_written c.written).leftBy hI hs
  declareArch := harch
  option := hoption

theorem of_option {name : String} (h : s.option name = .ok s') :
    s'.started = s.started ∧ s'.config = s.config ∧ s'.isa = s.isa := by
  unfold Session.option at h
  split at h
  · cases h
  · unfold runOption at h
    split at h
    · cases h
      exact ⟨rfl, rfl, rfl⟩
    · cases h
      exact ⟨rfl, rfl, rfl⟩
    · cases h
      exact ⟨rfl, rfl, rfl⟩
    · cases h
      exact ⟨rfl, rfl, rfl⟩
    · cases h
      exact ⟨rfl, rfl, rfl⟩
    · split at h
      · cases h
      · cases h
        exact ⟨rfl, rfl, rfl⟩

theorem of_useIsa {arch : List Char} (h : s.useIsa arch = .ok s') :
    s'.config = s.config ∧ Isa.parse s.config.versionOf arch = .ok s'.isa := by
  unfold Session.useIsa at h
  split at h
  · cases h
  · rename_i isa hisa
    cases h
    exact ⟨rfl, hisa⟩

theorem of_declareArch {arch : List Char} (h : s.declareArch arch = .ok s') :
    s.started = false ∧ s'.config = s.config ∧ Isa.parse s.config.versionOf arch = .ok s'.isa := by
  unfold Session.declareArch at h
  split at h
  · cases h
  · rename_i hstarted
    cases hisa : s.useIsa arch with
    | error e =>
      rw [hisa] at h
      cases h
    | ok s₁ =>
      rw [hisa] at h
      cases h
      have hs₁ := of_useIsa hisa
      exact ⟨by simpa using hstarted, hs₁⟩

/-- **No line sets another instruction set once an instruction was given.** -/
theorem keptByLines_fixedIsa (isa : Isa) : KeptByLines (FixedIsa isa) := by
  refine keptByLines_of_steady ⟨fun _ _ h => ⟨h.1, h.2⟩, fun _ _ h => ⟨h.1, h.2⟩,
    fun _ h => ⟨rfl, h.2⟩⟩ ?_ ?_
  · intro s s' arch hs h
    obtain ⟨hnot, -⟩ := of_declareArch h
    rw [hs.started] at hnot
    cases hnot
  · intro s s' name hs h
    obtain ⟨hstarted, -, hisa⟩ := of_option h
    exact ⟨hstarted.trans hs.started, hisa.trans hs.isa⟩

theorem keptByLines_speltIsa (config : Config) : KeptByLines (SpeltIsa config) := by
  refine keptByLines_of_steady ⟨fun _ _ h => ⟨h.1, h.2⟩, fun _ _ h => ⟨h.1, h.2⟩,
    fun _ h => ⟨h.1, h.2⟩⟩ ?_ ?_
  · intro s s' arch hs h
    obtain ⟨-, hconfig, hisa⟩ := of_declareArch h
    rw [hs.same] at hisa
    exact ⟨hconfig.trans hs.same, arch, hisa⟩
  · intro s s' name hs h
    obtain ⟨-, hconfig, hisa⟩ := of_option h
    exact ⟨hconfig.trans hs.same, hisa ▸ hs.spelt⟩

theorem speltIsa_new {cs : Catalogs} (h : Session.new cs config = .ok s) : SpeltIsa config s := by
  obtain ⟨s₁, hisa, h⟩ := bind_eq_ok_iff.1 h
  obtain ⟨_, -, h⟩ := bind_eq_ok_iff.1 h
  cases h
  obtain ⟨hconfig, hparse⟩ := of_useIsa hisa
  exact ⟨hconfig, config.arch, hparse⟩

theorem SpeltIsa.parse_canonicalString (h : SpeltIsa config s) :
    Isa.parse config.versionOf s.isa.canonical = .ok s.isa := by
  obtain ⟨arch, hparse⟩ := h.spelt
  unfold Isa.parse
  rw [(Isa.WellFormed.of_read (Isa.read_of_parse hparse)).read_canonical]

/-- An instruction starts the session, unless it leaves the session as it was. -/
theorem Call.started_or_same (c : Call) : c.after.started = true ∨ c.after = c.before := by
  obtain ⟨s, w⟩ := c
  rcases w.run_cases s with hrun | hrun
  · refine .inl ?_
    have hafter : Call.after ⟨s, w⟩ =
        leftBy (encodeIn w.catalog w.mnemonic w.operands >>= w.assemble)
          { s with started := true } := by
      unfold Call.after leftBy
      rw [hrun]
      rfl
    rw [hafter]
    exact (spares_encodeIn_assemble w).leftBy (I := fun s => s.started = true)
      ⟨fun _ _ h => h, fun _ _ h => h, fun _ _ => rfl⟩ rfl
  · exact .inr (leftBy_of_error hrun)

end

section

variable {cs : Catalogs} {config : Config} {start : Session} {requests : List Request}

/-- A call that places something settles the instruction set for the rest of a run. -/
theorem isa_of_places {s : Session} (hrequests : ∀ arch, .useIsa arch ∉ requests) {c : Call}
    (hc : c ∈ calls s requests)
    (hplaces : c.before.contents.items.size < c.after.contents.items.size) :
    FixedIsa c.before.isa (requests.foldl Request.run s) := by
  have hstarted : c.after.started = true := by
    refine c.started_or_same.resolve_right fun hsame => ?_
    rw [hsame] at hplaces
    exact Nat.lt_irrefl _ hplaces
  have hafter : FixedIsa c.before.isa c.after :=
    ⟨hstarted, congrArg Settings.isa ((keeps_written c.written).leftBy c.before)⟩
  exact (keptByLines_fixedIsa _).of_calls hc hafter (fun arch hmem => absurd hmem (hrequests arch))
    fun _ _ _ h => ⟨h.1, h.2⟩

/-- **One instruction set for everything assembled.** Whatever lines a session is given, and whatever
else but another instruction set from outside, failures included: once there is an item, the
instruction set is never another one. So every item was matched by a template that the instruction set
at the end provides for, and the string that reports this instruction set describes it. -/
theorem items_share_reported_isa (hcs : Catalogs.standard = .ok cs)
    (hnew : Session.new cs config = .ok start) (hrequests : ∀ arch, .useIsa arch ∉ requests) :
    let s := requests.foldl Request.run start
    Isa.parse config.versionOf s.isa.canonical = .ok s.isa ∧
      (s.contents.items ≠ #[] → ∀ more : List Request, (∀ arch, .useIsa arch ∉ more) →
        (more.foldl Request.run s).isa = s.isa) ∧
      ∀ (i : Nat) (item : Item), s.contents.items.toList[i]? = some item →
        ∃ c ∈ calls start requests, c.before.contents.items.size ≤ i ∧
          c.after.contents.items.toList[i]? = some item ∧ c.before.isa = s.isa ∧
          ∃ t, c.Matched t item ∧ t.ProvidedBy s.isa := by
  intro s
  have hcalls : ∀ i, i < s.contents.items.size → ∃ c ∈ calls start requests,
      c.before.contents.items.size ≤ i ∧ i < c.after.contents.items.size ∧
        FixedIsa c.before.isa s := by
    intro i hi
    have hempty : start.contents.items.size = 0 := by rw [(empty_of_new hnew).1]; rfl
    obtain ⟨c, hc, hbefore, hafter⟩ :=
      (passes_run hcs (settled_new hnew false) requests).exists_of_lt (by omega) hi
    exact ⟨c, hc, hbefore, hafter, isa_of_places hrequests hc (by omega)⟩
  refine ⟨?_, ?_, ?_⟩
  · refine SpeltIsa.parse_canonicalString ((keptByLines_speltIsa config).run (speltIsa_new hnew)
      (fun arch hmem => absurd hmem (hrequests arch)) fun _ _ _ h => ⟨h.1, h.2⟩).2
  · intro hitems more hmore
    obtain ⟨c, -, -, -, hfixed⟩ := hcalls 0 (Array.size_pos_iff.2 hitems)
    have hend := ((keptByLines_fixedIsa _).run hfixed
      (fun arch hmem => absurd hmem (hmore arch)) fun _ _ _ h => ⟨h.1, h.2⟩).2
    exact hend.isa.trans hfixed.isa.symm
  · intro i item hi
    obtain ⟨c, hc, hbefore, hafter, hfixed⟩ := hcalls i (List.getElem?_eq_some_iff.1 hi).1
    have hown := c.getElem?_of_owns ((trace_of_new hcs hnew requests).calls c hc).2.2 hi hafter
    obtain ⟨new, hitems, hmatched⟩ := c.matched
    have hmem : item ∈ new := by
      rw [hitems, List.getElem?_append_right (by simpa using hbefore)] at hown
      exact List.mem_of_getElem? hown
    obtain ⟨t, ht⟩ := hmatched item hmem
    rw [hfixed.isa]
    exact ⟨c, hc, hbefore, hown, rfl, t, ht, ht.providedBy⟩

end

/-- A compressed branch and the second instruction of a call, before a directive that comes too
late. -/
theorem branch_and_call_share_reported_isa :
    ∃ cs, Catalogs.standard = .ok cs ∧
      let s := branchAndCall.foldl Request.run (generalStart cs)
      s.contents.items ≠ #[] ∧
        ([Request.line ".attribute arch, \"rv32i\"".toList].foldl Request.run s).isa = s.isa ∧
        ∃ c ∈ calls (generalStart cs) branchAndCall,
          c.after.contents.items.toList[2]? = some (.data [0xe7, 0x80, 0x00, 0x00] none) ∧
          ∃ t, c.Matched t (.data [0xe7, 0x80, 0x00, 0x00] none) ∧ t.ProvidedBy s.isa := by
  obtain ⟨cs, hcs⟩ := Catalogs.exists_standard
  have hrequests : ∀ arch, .useIsa arch ∉ branchAndCall := by simp [branchAndCall]
  obtain ⟨-, hfixed, hmatched⟩ := items_share_reported_isa hcs (new_general cs) hrequests
  have hcontents := (contents_of_branchAndCall hcs).1
  have hitems : (branchAndCall.foldl Request.run (generalStart cs)).contents.items ≠ #[] := by
    rw [hcontents]
    exact Array.ne_empty_of_size_pos (by decide)
  obtain ⟨c, hc, -, hitem, -, ht⟩ := hmatched 2 _ (by rw [hcontents]; rfl)
  exact ⟨cs, hcs, hitems, hfixed hitems _ (by simp), c, hc, hitem, ht⟩

end Session

end RiscvAssembler
