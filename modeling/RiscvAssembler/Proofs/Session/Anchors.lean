import RiscvAssembler.Proofs.Session.Defects
import RiscvAssembler.Proofs.Session.Expansions
import RiscvAssembler.Proofs.Session.Labels

/-!
Labels that are made up. An address in two parts has a label for its upper part, and a dot has one for
the place where it was written. In a layout these labels have the addresses of the instructions that
they were made up for, whatever was placed around them (`anchors_bind_to_their_instructions`).
-/

namespace RiscvAssembler

section

variable {e : Encoded}

theorem Encoded.imm_named {addend : Int64} (h : e.dotAddend? = some addend) (n : Nat) :
    (e.named n).imm = some (.symbol (Label.dotSymbol n) addend) := by
  unfold named
  rw [h]

theorem Encoded.reference?_of_item? {name : String} {addend : Int64}
    (himm : e.imm = some (.symbol name addend)) {kind : RelocType} (hreloc : e.reloc = some kind)
    {relax : Bool} {item : Item} (h : e.item? relax = some item) :
    item.reference? = some (some name, addend) := by
  unfold item? at h
  rw [hreloc, himm] at h
  dsimp only at h
  split at h
  · cases h
    rfl
  · cases h
    rfl

end

namespace Session

/-! ### Calls -/

section

variable {c : Call} {e : Encoded}

theorem Call.encode_of_encoded? (h : c.encoded? = some e) :
    ∃ text, (c.written.catalog c.before.catalogs).encode (c.before.context true)
      c.written.mnemonic text = .ok e := by
  obtain ⟨text, -, hencode⟩ := Option.bind_eq_some_iff.1 h
  exact ⟨text, eq_ok_of_toOption hencode⟩

theorem Call.exists_encoded? (h : c.expands = true) : ∃ e, c.encoded? = some e := by
  unfold Call.expands at h
  split at h
  · cases he : c.encoded? with
    | none =>
      rw [he] at h
      cases h
    | some e => exact ⟨e, rfl⟩
  · cases h

/-- What a call of a pseudo-instruction places. -/
theorem Call.expanded (hcs : Catalogs.standard = .ok c.before.catalogs) (hexpands : c.expands = true)
    (he : c.encoded? = some e) :
    Expanded c.before c.after (e.named c.before.labels.nextDot).imm := by
  obtain ⟨text, hencode⟩ := c.encode_of_encoded? he
  obtain ⟨mnemonic, operands, kind, hwritten, hkind, hassemble⟩ := c.assemble_of_expands hexpands he
  rcases c.after_cases with hidles | ⟨e', s₁, he', hidles, -, hnext, -, hafter⟩
  · exact .nothing hidles.same
  · cases he.symm.trans he'
    rw [hafter, hassemble]
    refine .of_idles hidles hnext (expanded_expand (hidles.catalogs ▸ hcs) ?_)
    rintro rfl r hr
    rw [Encoded.reloc_named] at hr
    rw [hwritten] at hencode
    exact call_of_encode hcs hencode hkind hr

/-- An instruction that is left with a symbol has a relocation. -/
theorem Call.exists_reloc (hcs : Catalogs.standard = .ok c.before.catalogs)
    (he : c.encoded? = some e) {name : String} {addend : Int64}
    (himm : e.imm = some (.symbol name addend)) : ∃ kind, e.reloc = some kind := by
  obtain ⟨hinstructions, hfieldTypes⟩ := build_of_standard hcs
  obtain ⟨text, hencode⟩ := c.encode_of_encoded? he
  have hleft : Leftover e.template.operands e.imm e.reloc := by
    cases hwritten : c.written with
    | instruction mnemonic operands =>
      rw [hwritten] at hencode
      obtain ⟨hmem, -, hencode⟩ := Catalog.exists_of_encode hinstructions hencode
      exact Template.leftover_of_encode (Template.regular_of_mem hmem).defersOnce hencode
    | fields fields =>
      rw [hwritten] at hencode
      obtain ⟨hmem, -, hencode⟩ := Catalog.exists_of_encode hfieldTypes hencode
      exact Template.leftover_of_encode (Template.defersOnce_of_mem_fieldTypes hmem) hencode
  rw [himm] at hleft
  generalize e.reloc = reloc at hleft
  cases hleft with
  | symbol _ _ kind _ => exact ⟨kind, rfl⟩

/-- A call whose target was a dot has a symbol for the dot where it starts, and its first item refers
to that. -/
theorem Call.dot_of_placed (hcs : Catalogs.standard = .ok c.before.catalogs)
    (he : c.encoded? = some e) {addend : Int64} (hdot : e.dotAddend? = some addend)
    (hsize : c.before.contents.items.size < c.after.contents.items.size) :
    c.after.contents.symbols[Label.dotSymbol c.before.labels.nextDot]? =
        some c.before.contents.items.size ∧
      ∃ item, c.after.contents.items.toList[c.before.contents.items.size]? = some item ∧
        item.reference? = some (some (Label.dotSymbol c.before.labels.nextDot), addend) := by
  have himm := Encoded.imm_named hdot c.before.labels.nextDot
  rcases c.after_cases with hidles | ⟨e', s₁, he', hidles, -, -, hsymbol, hafter⟩
  · rw [hidles.same] at hsize
    exact absurd hsize (Nat.lt_irrefl _)
  cases he.symm.trans he'
  replace hsymbol := hsymbol (by rw [hdot]; rfl)
  by_cases hexpands : c.expands = true
  · have hexpanded := c.expanded hcs hexpands he
    rw [himm] at hexpanded
    refine ⟨?_, hexpanded.first hsize⟩
    obtain ⟨-, -, kind, -, -, hassemble⟩ := c.assemble_of_expands hexpands he
    rw [hafter, hassemble]
    exact (grows_expand (hidles.catalogs ▸ hcs) _ _).symbols _ _ hsymbol
  · rw [c.leftBy_assemble (by simpa using hexpands) he] at hafter
    cases hitem : (e.named c.before.labels.nextDot).item? s₁.options.relax with
    | none =>
      obtain ⟨er, -, her⟩ := place_of_item?_eq_none hitem
      rw [hafter, leftBy_of_error her, hidles.same] at hsize
      exact absurd hsize (Nat.lt_irrefl _)
    | some item =>
      obtain ⟨placed, hplaced⟩ := place_of_item? hitem
      rw [leftBy_of_ok hplaced] at hafter
      obtain ⟨name, himm₀⟩ : ∃ name, e.imm = some (.symbol name addend) := by
        unfold Encoded.dotAddend? at hdot
        split at hdot
        · rename_i name addend' himm₀
          split at hdot
          · cases hdot
            exact ⟨name, himm₀⟩
          · cases hdot
        · cases hdot
      obtain ⟨kind, hkind⟩ := c.exists_reloc hcs he himm₀
      rw [hafter]
      refine ⟨hsymbol, item, ?_, Encoded.reference?_of_item? himm (by simpa using hkind) hitem⟩
      simp [withItem, Section.push, hidles.same]

end

/-! ### Runs -/

/-- Whether a relocation stands in what a call placed, given the addresses of the items. -/
def Call.Owns (c : Call) (address : Nat → Nat) (r : Relocation) : Prop :=
  address c.before.contents.items.size ≤ r.offset ∧ r.offset < address c.after.contents.items.size

section

variable {c : Call} {s : Session} {s' mid : Section} {l : Layout} {pieces : List Piece}

/-- What stands among the items of a call was placed by it. -/
theorem Call.getElem?_of_owns (hgrows : Grows c.after s) {i : Nat} {item : Item}
    (hi : s.contents.items.toList[i]? = some item) (hlt : i < c.after.contents.items.size) :
    c.after.contents.items.toList[i]? = some item := by
  have hafter : c.after.contents.items.toList[i]? = some (c.after.contents.items.toList[i]) :=
    List.getElem?_eq_getElem _
  rw [hafter, ← hi, hgrows.getElem? hafter]

/-- The low part of an address is against the label of its expansion, which stands before the upper
part. -/
theorem Call.low_of_owns (hcs : Catalogs.standard = .ok c.before.catalogs)
    (hexpands : c.expands = true) (hgrows : Grows c.after s)
    (hlaid : Section.LaidOut s.contents s' l mid pieces)
    (hpos : ∀ item ∈ s.contents.items.toList, 0 < item.size) {r : Relocation} (hr : r ∈ l.fixups)
    (howns : c.Owns (startOf s'.items.toList) r) (hlow : r.kind.isLowPart = true) :
    c.before.labels.nextUpper < c.after.labels.nextUpper ∧
      r.symbol = some (Expansion.upperLabel c.before.labels.nextUpper) ∧ r.addend = 0 ∧
      r.offset = startOf s'.items.toList c.before.contents.items.size + 4 ∧
      s.contents.symbols[Expansion.upperLabel c.before.labels.nextUpper]? =
        some c.before.contents.items.size ∧
      ∃ r' ∈ l.fixups, c.Owns (startOf s'.items.toList) r' ∧
        r'.offset = startOf s'.items.toList c.before.contents.items.size ∧
        r'.kind.isUpperPart = true := by
  have hkind : r.kind ≠ .relax := by
    intro h
    rw [h] at hlow
    cases hlow
  obtain ⟨i, item, hitem, hreference, hle, hlt, hdata⟩ :=
    hlaid.reference_of_mem_fixups hpos hr hkind
  obtain ⟨bytes, f, rfl, hf, hoffset⟩ := hdata (RelocType.ofReloc?_of_isLowPart hlow)
  obtain ⟨hbefore, hafter⟩ := Section.LaidOut.index_of_within hle hlt howns.1 howns.2
  obtain ⟨e, he⟩ := c.exists_encoded? hexpands
  obtain ⟨rfl, hnext, htarget, hlabel, bytes', f', hfirst, hlength, hupper⟩ :=
    (c.expanded hcs hexpands he).low hbefore (c.getElem?_of_owns hgrows hitem hafter) (hf ▸ hlow)
  have hfirst' := hgrows.getElem? hfirst
  have hsucc := startOf_succ (hlaid.getElem?_data_iff.2 hfirst')
  simp only [Item.size, hlength] at hsucc
  obtain ⟨r', hr', -, -, hle', hlt', hdata'⟩ := hlaid.exists_mem_fixups hpos hfirst' rfl
  obtain ⟨hkind', hoffset'⟩ := hdata' _ _ rfl
  simp only [Item.reference?, Option.map_some, htarget, Flat.reference, Option.some.injEq,
    Prod.mk.injEq] at hreference
  refine ⟨hnext, hreference.1.symm, hreference.2.symm, hoffset.trans hsucc,
    hgrows.symbols _ _ hlabel, r', hr', ⟨hle', ?_⟩, hoffset', hkind' ▸ hupper⟩
  exact Nat.lt_of_lt_of_le hlt' (startOf_mono _ (Nat.le_of_lt hafter))

/-- The first item of a call whose target was a dot refers to the symbol of the dot, which stands
where the call starts. -/
theorem Call.dot_of_owns (hcs : Catalogs.standard = .ok c.before.catalogs) (hgrows : Grows c.after s)
    (hlaid : Section.LaidOut s.contents s' l mid pieces)
    (hpos : ∀ item ∈ s.contents.items.toList, 0 < item.size) {e : Encoded}
    (he : c.encoded? = some e) {addend : Int64} (hdot : e.dotAddend? = some addend)
    (hsize : c.before.contents.items.size < c.after.contents.items.size) :
    s.contents.symbols[Label.dotSymbol c.before.labels.nextDot]? =
        some c.before.contents.items.size ∧
      (∃ r ∈ l.fixups, r.symbol = some (Label.dotSymbol c.before.labels.nextDot) ∧
        r.addend = addend ∧ startOf s'.items.toList c.before.contents.items.size ≤ r.offset ∧
        r.offset < startOf s'.items.toList (c.before.contents.items.size + 1)) ∧
      ∀ r ∈ l.fixups, r.kind ≠ .relax →
        startOf s'.items.toList c.before.contents.items.size ≤ r.offset →
        r.offset < startOf s'.items.toList (c.before.contents.items.size + 1) →
        r.symbol = some (Label.dotSymbol c.before.labels.nextDot) ∧ r.addend = addend := by
  obtain ⟨hsymbol, item, hitem, hreference⟩ := c.dot_of_placed hcs he hdot hsize
  replace hitem := hgrows.getElem? hitem
  refine ⟨hgrows.symbols _ _ hsymbol, ?_, ?_⟩
  · obtain ⟨r, hr, hname, haddend, hle, hlt, -⟩ := hlaid.exists_mem_fixups hpos hitem hreference
    exact ⟨r, hr, hname, haddend, hle, hlt⟩
  · intro r hr hkind hle hlt
    obtain ⟨i, item', hitem', hreference', hle', hlt', -⟩ :=
      hlaid.reference_of_mem_fixups hpos hr hkind
    obtain ⟨hbefore, hafter⟩ := Section.LaidOut.index_of_within hle' hlt' hle hlt
    obtain rfl : i = c.before.contents.items.size := by omega
    cases hitem.symm.trans hitem'
    rw [hreference] at hreference'
    obtain ⟨hname, haddend⟩ := Prod.mk.inj (Option.some.inj hreference')
    exact ⟨hname.symm, haddend.symm⟩

end

/-- What is known of the labels that a run made up, given the addresses of its items. Each low part
of an address in an expansion is against the label of the expansion, which has the address of the
upper part, four bytes before; no two expansions have a label in common; and what had a dot for its
target refers to a label with the address of its first byte. -/
structure Anchored (run : List Call) (address : Nat → Nat) (l : Layout) : Prop where
  pairs : ∀ c ∈ run, c.expands = true → ∀ r ∈ l.fixups, c.Owns address r →
    r.kind.isLowPart = true →
      ∃ n, r.symbol = some (Expansion.upperLabel n) ∧ r.addend = 0 ∧ 4 ≤ r.offset ∧
        l.symbols.lookup (Expansion.upperLabel n) = some (r.offset - 4) ∧
        ∃ r' ∈ l.fixups, c.Owns address r' ∧ r'.offset = r.offset - 4 ∧
          r'.kind.isUpperPart = true
  apart : run.Pairwise fun c c' => c.expands = true → c'.expands = true →
    ∀ r ∈ l.fixups, ∀ r' ∈ l.fixups, c.Owns address r → c'.Owns address r' →
      r.kind.isLowPart = true → r'.kind.isLowPart = true → r.symbol ≠ r'.symbol
  dots : ∀ c ∈ run, ∀ e addend, c.encoded? = some e → e.dotAddend? = some addend →
    c.before.contents.items.size < c.after.contents.items.size →
      let first := address c.before.contents.items.size
      let next := address (c.before.contents.items.size + 1)
      ∃ n, l.symbols.lookup (Label.dotSymbol n) = some first ∧
        (∃ r ∈ l.fixups, r.symbol = some (Label.dotSymbol n) ∧ r.addend = addend ∧
          first ≤ r.offset ∧ r.offset < next) ∧
        ∀ r ∈ l.fixups, r.kind ≠ .relax → first ≤ r.offset → r.offset < next →
          r.symbol = some (Label.dotSymbol n) ∧ r.addend = addend

/-- **Labels that are made up stand at the right instructions**, in every layout of a run, whatever it
was asked for and whatever failed. -/
theorem anchors_bind_to_their_instructions {cs : Catalogs} (hcs : Catalogs.standard = .ok cs)
    {config : Config} {start : Session} (hnew : Session.new cs config = .ok start)
    (requests : List Request) {l : Layout}
    (hfinish : (requests.foldl Request.run start).finish = .ok l) :
    Anchored (calls start requests)
      (startOf (requests.foldl Request.run start).contents.layout.1.items.toList) l := by
  obtain ⟨mid, pieces, hlaid⟩ := exists_laidOut_of_finish hfinish
  have htrace := trace_of_new hcs hnew requests
  have hcatalogs : ∀ c ∈ calls start requests, Catalogs.standard = .ok c.before.catalogs :=
    fun c hc => (htrace.calls c hc).1 ▸ hcs
  refine ⟨?_, ?_, ?_⟩
  · intro c hc hexpands r hr howns hlow
    obtain ⟨-, hsymbol, haddend, hoffset, hlabel, r', hr', howns', hoffset', hupper⟩ :=
      c.low_of_owns (hcatalogs c hc) hexpands (htrace.calls c hc).2.2 hlaid htrace.positive hr howns
        hlow
    have hsub := Nat.sub_eq_of_eq_add hoffset
    refine ⟨_, hsymbol, haddend, by omega, ?_, r', hr', howns', by rw [hoffset', hsub], hupper⟩
    rw [hlaid.lookup_symbols htrace.bounded, hlabel, Option.map_some, hsub]
  · refine (List.pairwise_iff_forall_sublist.2 fun {c c'} hsub => ?_)
    intro hexpands hexpands' r hr r' hr' howns howns' hlow hlow' hsame
    have hc : c ∈ calls start requests := hsub.subset (by simp)
    have hc' : c' ∈ calls start requests := hsub.subset (by simp)
    obtain ⟨hnext, hsymbol, -⟩ := c.low_of_owns (hcatalogs c hc) hexpands (htrace.calls c hc).2.2
      hlaid htrace.positive hr howns hlow
    obtain ⟨-, hsymbol', -⟩ := c'.low_of_owns (hcatalogs c' hc') hexpands'
      (htrace.calls c' hc').2.2 hlaid htrace.positive hr' howns' hlow'
    rw [hsymbol, hsymbol', Option.some.injEq, Expansion.upperLabel_inj] at hsame
    have hlater := (List.pairwise_iff_forall_sublist.1 htrace.pairwise hsub).nextUpper
    omega
  · intro c hc e addend he hdot hsize
    obtain ⟨hsymbol, hexists, hall⟩ := c.dot_of_owns (hcatalogs c hc) (htrace.calls c hc).2.2 hlaid
      htrace.positive he hdot hsize
    refine ⟨_, ?_, hexists, hall⟩
    rw [hlaid.lookup_symbols htrace.bounded, hsymbol, Option.map_some]

/-! ### An address relative to itself -/

section

variable {s : Session} {bytes bytes' : List UInt8}

/-- A step whose bytes are known. -/
theorem runStep_of_bytes {mnemonic : String} {operands : List Char}
    (h : (s.catalogs.instructions.encode (s.context false) mnemonic operands).toOption.map
      Encoded.toBytes = some bytes) {kind : RelocType} (hkind : BranchKind.ofReloc? kind = none)
    (pseudo name : String) (addend : Int64) :
    ∃ placed, runStep pseudo (.insn mnemonic operands (some (kind, .symbol name addend))) s =
      .ok placed (s.withItem (.data bytes
        (some ⟨kind, .symbol name addend, kind.mayRelax s.options.relax⟩))) := by
  obtain ⟨e, he, rfl⟩ := Option.map_eq_some_iff.1 h
  have hitem : (relocate e (some (kind, .symbol name addend))).item? s.options.relax =
      some (.data e.toBytes
        (some ⟨kind, .symbol name addend, kind.mayRelax s.options.relax⟩)) := by
    simp only [relocate, Encoded.item?, hkind]
    rfl
  exact runStep_of_item? (eq_ok_of_toOption he) hitem pseudo

open Expansion in
/-- An address in two parts whose bytes are known. -/
theorem leftBy_throughUpper {label : String} (hlabel : s.contents.defines label = false) (base : Nat)
    (hauipc : (s.catalogs.instructions.encode (s.context false) "auipc"
      (withZero base)).toOption.map Encoded.toBytes = some bytes)
    {mnemonic : String} {operands : List Char}
    (haccess : (s.catalogs.instructions.encode (s.context false) mnemonic
      operands).toOption.map Encoded.toBytes = some bytes')
    {upper low : RelocType} (hupper : BranchKind.ofReloc? upper = none)
    (hlow : BranchKind.ofReloc? low = none) (pseudo name : String) (addend : Int64) :
    leftBy (runSteps pseudo
        (throughUpper label base (.symbol name addend) upper low mnemonic operands)) s =
      ((s.withSymbol label).withItem (.data bytes
        (some ⟨upper, .symbol name addend, upper.mayRelax s.options.relax⟩))).withItem (.data bytes'
          (some ⟨low, .symbol label 0, low.mayRelax s.options.relax⟩)) := by
  rw [throughUpper, leftBy_runSteps_cons, runStep_label, hlabel, if_neg Bool.false_ne_true]
  dsimp only
  obtain ⟨placed, hrun⟩ :=
    runStep_of_bytes (s := s.withSymbol label) hauipc hupper pseudo name addend
  have hrelax : (s.withSymbol label).options.relax = s.options.relax := rfl
  rw [leftBy_runSteps_cons, hrun, hrelax]
  dsimp only
  obtain ⟨placed', hrun'⟩ := runStep_of_bytes (s := (s.withSymbol label).withItem (.data bytes
    (some ⟨upper, .symbol name addend, upper.mayRelax s.options.relax⟩))) haccess hlow pseudo label 0
  rw [leftBy_runSteps_cons, hrun']
  rfl

end

/-- The section of `la a0, .`. -/
def selfAddress : Section :=
  ⟨#[.data [0x17, 0x05, 0x00, 0x00] (some ⟨.pcrelHi20, .symbol (Label.dotSymbol 0) 0, true⟩),
      .data [0x13, 0x05, 0x05, 0x00] (some ⟨.pcrelLo12I, .symbol (Expansion.upperLabel 0) 0, true⟩)],
    ((∅ : Std.TreeMap String Nat).insert (Label.dotSymbol 0) 0).insert
      (Expansion.upperLabel 0) 0⟩

theorem contents_of_selfAddress {cs : Catalogs} (hcs : Catalogs.standard = .ok cs) :
    let s := leftBy (instruction "la" "a0, .".toList) (generalStart cs)
    s.contents = selfAddress ∧ s.labels.pending = #[] := by
  have hla : (cs.instructions.encode ⟨generalIsa, true, false, true, .basic⟩ "la"
      "a0, .".toList).toOption.map (fun e => (e.template.pseudo, e.bits, e.imm)) =
        some (some .la, 0x500#64, some (.symbol "." 0)) := by
    rw [Catalog.encode, lookup_standard hcs]
    decide +kernel
  have hauipc : (cs.instructions.encode ⟨generalIsa, true, false, false, .basic⟩ "auipc"
      "x10, 0".toList).toOption.map Encoded.toBytes = some [0x17, 0x05, 0x00, 0x00] := by
    rw [Catalog.encode, lookup_standard hcs]
    decide +kernel
  have haddi : (cs.instructions.encode ⟨generalIsa, true, false, false, .basic⟩ "addi"
      "x10, x10, 0".toList).toOption.map Encoded.toBytes = some [0x13, 0x05, 0x05, 0x00] := by
    rw [Catalog.encode, lookup_standard hcs]
    decide +kernel
  obtain ⟨e, he, houtline⟩ := Option.map_eq_some_iff.1 hla
  obtain ⟨hpseudo, hbits, himm⟩ : e.template.pseudo = some .la ∧ e.bits = 0x500#64 ∧
      e.imm = some (.symbol "." 0) := by
    simpa using houtline
  have hdot : e.dotAddend? = some 0 := by simp [Encoded.dotAddend?, himm]
  let s₁ : Session := ((generalStart cs).begun .empty).withDotUsed.withSymbol (Label.dotSymbol 0)
  have hencode : encodeIn Catalogs.instructions "la" "a0, .".toList (generalStart cs) =
      .ok (e.named 0) s₁ := by
    have hfree : Section.empty.defines (Label.dotSymbol 0) = false := by decide +kernel
    have hencode : (generalStart cs).catalogs.instructions.encode ((generalStart cs).context true)
        "la" "a0, .".toList = .ok e := eq_ok_of_toOption he
    rw [encodeIn_eq, resolve_of_plain (by decide +kernel)]
    dsimp only
    rw [hencode]
    dsimp only
    rw [nameDot_eq, hdot]
    dsimp only
    rw [if_neg (by rw [← Bool.not_eq_true] at hfree; exact hfree)]
    rfl
  have hexpand : PseudoKind.la.expand (e.named 0) s₁.isa.xlen s₁.options.pic s₁.labels.nextUpper =
      .ok (Expansion.throughUpper (Expansion.upperLabel 0) 10 (.symbol (Label.dotSymbol 0) 0) .pcrelHi20 .pcrelLo12I
        "addi" "x10, x10, 0".toList, 1) := by
    unfold PseudoKind.expand
    rw [Encoded.imm_named hdot]
    dsimp only [PseudoKind.steps]
    rw [Encoded.bits_named, hbits]
    rfl
  have hlabel : (⟨#[], (∅ : Std.TreeMap String Nat).insert (Label.dotSymbol 0) 0⟩ :
      Section).defines (Expansion.upperLabel 0) = false := by decide +kernel
  have hleft := leftBy_throughUpper (s := s₁.withUpper 1) hlabel 10 hauipc haddi
    (rfl : BranchKind.ofReloc? .pcrelHi20 = none) (rfl : BranchKind.ofReloc? .pcrelLo12I = none)
    (e.named 0).template.mnemonic (Label.dotSymbol 0) 0
  intro s
  have hs : s = leftBy (instruction "la" "a0, .".toList) (generalStart cs) := rfl
  unfold instruction at hs
  rw [leftBy_bind, hencode] at hs
  dsimp only at hs
  rw [Encoded.template_named, hpseudo] at hs
  dsimp only at hs
  rw [leftBy_expand hexpand, hleft] at hs
  rw [hs]
  exact ⟨rfl, rfl⟩

/-- The address of the instruction itself. -/
theorem anchors_bind_to_their_instructions_la :
    ∃ cs start l, Catalogs.standard = .ok cs ∧
      Session.new cs (.ofArch "rv64gc".toList) = .ok start ∧
      ([Request.instruction "la" "a0, .".toList].foldl Request.run start).finish = .ok l ∧
      l.symbols.length = 2 ∧ l.fixups.length = 4 ∧
      Anchored (calls start [.instruction "la" "a0, .".toList])
        (startOf ([Request.instruction "la" "a0, .".toList].foldl Request.run
          start).contents.layout.1.items.toList) l := by
  obtain ⟨cs, hcs⟩ := Catalogs.exists_standard
  obtain ⟨hcontents, hpending⟩ := contents_of_selfAddress hcs
  have hlayout : selfAddress.layout.2.toOption.map
      (fun l => (l.symbols.length, l.fixups.length)) = some (2, 4) := by decide +kernel
  obtain ⟨l, hl, hlengths⟩ := Option.map_eq_some_iff.1 hlayout
  obtain ⟨hsymbols, hfixups⟩ := Prod.mk.inj hlengths
  have hfinish : ([Request.instruction "la" "a0, .".toList].foldl Request.run
      (generalStart cs)).finish = .ok l := by
    change (leftBy (instruction "la" "a0, .".toList) (generalStart cs)).finish = .ok l
    rw [finish_of_pending hpending, hcontents]
    exact eq_ok_of_toOption hl
  exact ⟨cs, generalStart cs, l, hcs, new_general cs, hfinish, hsymbols, hfixups,
    anchors_bind_to_their_instructions hcs (new_general cs) _ hfinish⟩

end Session

end RiscvAssembler
