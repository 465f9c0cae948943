import RiscvAssembler.Proofs.Session.Lines
import RiscvAssembler.Proofs.Session.Reachable

/-!
Defects of layout. A source that is accepted line by line may still fail to be laid out. It does so
exactly if the sizes settle and leave a branch that is out of reach, because lengths never grow
again and an addend moves the target, or a compressed branch given field by field that needs 32 bits
and has no form of that length (`finish_defect_iff`). Both happen.
-/

namespace RiscvAssembler

/-! ### Branches that are not emitted -/

/-- A compressed branch that has to be widened, and cannot. -/
structure Branch.Narrow (b : Branch) : Prop where
  short : b.kind.isShort = true
  two : b.length ≠ 2
  six : b.length ≠ 6
  word : ∀ w, BranchWord.expand b.insn ≠ .ok w

theorem Branch.bytes_eq_error_iff {b : Branch} : (∃ d, b.bytes = .error d) ↔ b.Narrow := by
  constructor
  · rintro ⟨d, h⟩
    have hwide : ∀ w, b.wideWord ≠ .ok w := by
      intro w hw
      obtain ⟨code, hcode⟩ := bytes_of_wideWord hw
      cases h.symm.trans hcode
    unfold bytes at h
    split at h
    · cases h
    · rename_i htwo
      split at h
      · cases h
      · rename_i hsix
        unfold wideWord at hwide
        split at hwide
        · rename_i hshort
          exact ⟨hshort, htwo, hsix, hwide⟩
        · exact absurd rfl (hwide b.insn)
  · intro h
    unfold bytes wideWord
    rw [if_neg h.two, if_neg h.six, if_pos h.short]
    cases hexpand : BranchWord.expand b.insn with
    | ok w => exact absurd hexpand (h.word w)
    | error d => exact ⟨d, rfl⟩

/-- A branch whose length was chosen is not emitted if the length is not enough or does not
exist. -/
theorem Branch.emit_eq_error_iff {b : Branch} (hstate : b.state ≠ .unresolved)
    {distance : Option Int64} :
    (∃ d, b.emit distance = .error d) ↔ b.kind.reaches b.length distance = false ∨ b.Narrow := by
  rw [← bytes_eq_error_iff]
  unfold emit
  split
  · rename_i hreach
    exact ⟨fun _ => .inl (hreach.resolve_left hstate), fun _ => ⟨_, rfl⟩⟩
  · rename_i hreach
    rw [not_or] at hreach
    cases b.bytes with
    | ok code =>
      constructor
      · rintro ⟨d, h⟩
        cases h
      · rintro (h | ⟨d, h⟩)
        · exact absurd h hreach.2
        · cases h
    | error d => exact ⟨fun _ => .inr ⟨d, rfl⟩, fun _ => ⟨d, rfl⟩⟩

/-! ### Items as they were appended -/

/-- Whether the word of a compressed branch has a form of 32 bits. -/
def Item.isWidenable (item : Item) : Bool :=
  item.branch?.all fun b => !b.kind.isShort || (BranchWord.expand b.insn).isOk

theorem Item.isWidenable_appended (item : Item) : item.appended.isWidenable = item.isWidenable := by
  cases item <;> rfl

theorem Item.Fresh.isListed {item : Item} {wide : Bool} (h : item.Fresh wide) :
    item.isListed = true := by
  cases item with
  | data bytes fixup =>
    cases fixup with
    | none => rfl
    | some f => exact h f rfl
  | branch b relax => rfl

theorem Item.Fresh.isWidenable {item : Item} (h : item.Fresh true) : item.isWidenable = true := by
  cases item with
  | data bytes fixup => rfl
  | branch b relax =>
    obtain ⟨k, w, name, addend, rfl, hexpands⟩ := h
    change (!k.isShort || (BranchWord.expand w).isOk) = true
    cases hshort : k.isShort with
    | false => rfl
    | true =>
      obtain ⟨w', hw'⟩ := hexpands rfl hshort
      rw [hw']
      rfl

/-- A branch with a wide form can be widened. -/
theorem Branch.not_narrow_of_isWidenable {b : Branch} {relax : Bool}
    (h : (Item.branch b relax).isWidenable = true) : ¬b.Narrow := by
  intro hnarrow
  change (!b.kind.isShort || (BranchWord.expand b.insn).isOk) = true at h
  rw [hnarrow.short] at h
  cases hexpand : BranchWord.expand b.insn with
  | ok w => exact hnarrow.word w hexpand
  | error d =>
    rw [hexpand] at h
    cases h

/-- Branches of which no length is chosen are sound. -/
theorem Section.sound_of_fresh {s : Section} {wide : Bool}
    (h : ∀ item ∈ s.items.toList, item.Fresh wide) : s.Sound := by
  intro i b relax hitem
  obtain ⟨k, w, name, addend, rfl, -⟩ := h _ (List.mem_of_getElem? hitem)
  exact Branch.sound_new k w name addend _

namespace Section

/-- **When layout has a defect:** the sizes settle, and leave a branch that does not reach its
target or cannot be widened. -/
theorem layout_defect_iff {s : Section} (hlisted : ∀ item ∈ s.items.toList, item.isListed = true) :
    (∃ d, s.layout.2 = .error (.defect d)) ↔
      ∃ mid, s.relax maxPasses = (mid, true) ∧
        ∃ (i : Nat) (b : Branch) (relax : Bool), mid.items.toList[i]? = some (.branch b relax) ∧
          (b.kind.reaches b.length (mid.distanceAt i b) = false ∨ b.Narrow) := by
  constructor
  · rintro ⟨d, hdefect⟩
    cases hrelax : s.relax maxPasses with
    | mk mid settled =>
      cases settled with
      | false =>
        rw [layout_of_not_settled hrelax] at hdefect
        cases hdefect
      | true =>
        have hemits : ¬mid.Emits := by
          intro hemits
          obtain ⟨l, hl⟩ := layout_of_emits hrelax hemits hlisted
          cases hdefect.symm.trans hl
        obtain ⟨i, b, relax, d', hitem, hemit, -⟩ := defect_of_not_emits hrelax hemits
        have hstate := state_ne_of_relax hrelax hitem
        exact ⟨mid, rfl, i, b, relax, hitem, (Branch.emit_eq_error_iff hstate).1 ⟨d', hemit⟩⟩
  · rintro ⟨mid, hrelax, i, b, relax, hitem, hfails⟩
    have hstate := state_ne_of_relax hrelax hitem
    have hemits : ¬mid.Emits := by
      intro hemits
      obtain ⟨out, hout⟩ := hemits i b relax hitem
      obtain ⟨d, hd⟩ := (Branch.emit_eq_error_iff hstate).2 hfails
      cases hd.symm.trans hout
    obtain ⟨-, -, -, d, -, -, hdefect⟩ := defect_of_not_emits hrelax hemits
    exact ⟨d, hdefect⟩

/-- A settled branch that does not reach its target has an addend. -/
theorem offset_ne_of_not_reaches {s mid : Section} (h : s.Sound) (hsize : s.capacity < 2 ^ 63)
    (hrelax : s.relax maxPasses = (mid, true)) {i : Nat} {b : Branch} {relax : Bool}
    (hitem : mid.items.toList[i]? = some (.branch b relax))
    (hreach : b.kind.reaches b.length (mid.distanceAt i b) = false) : b.offset ≠ 0 := by
  intro hoffset
  have hmid := h.relax (h.extent_lt hsize) maxPasses
  rw [hrelax] at hmid
  have hreaches := (hmid i b relax hitem).reaches (state_ne_of_relax hrelax hitem) hoffset
  cases hreach.symm.trans hreaches

end Section

namespace Session

/-! ### Accepted sources -/

theorem Settled.allStatements {cs : Catalogs} (hcs : Catalogs.standard = .ok cs) {ev : Evaluator}
    {wide : Bool} {texts : List (List Char)}
    (hwide : wide = true → ∀ text ∈ texts, ∀ fields, (Line.read text).statement ≠ .fields fields)
    {s s' : Session} (h : Settled cs ev wide s) (hrun : s.allStatements texts = .ok s') :
    Settled cs ev wide s' := by
  induction texts generalizing s with
  | nil =>
    cases hrun
    exact h
  | cons text texts ih =>
    have hline : Yields (Settled cs ev wide) (Quiet ev) (line text) fun _ => True :=
      yields_line hcs fun hw => hwide hw text List.mem_cons_self
    replace hline := hline s h
    have hrest := fun hw text' htext' => hwide hw text' (List.mem_cons_of_mem _ htext')
    unfold Session.allStatements at hrun
    cases hstep : line text s with
    | ok u s₁ =>
      rw [hstep] at hline hrun
      exact ih hrest hline.1 hrun
    | error e s₁ =>
      rw [hstep] at hline hrun
      dsimp only at hrun
      split at hrun
      · cases hrun
      · exact ih hrest hline.1 hrun

/-! ### Two sections -/

/-- A session with all general instructions. -/
def generalStart (cs : Catalogs) : Session :=
  { catalogs := cs, config := .ofArch "rv64gc".toList, evaluator := .basic, isa := generalIsa,
    options := ⟨true, false, true, false⟩, saved := [], contents := .empty, labels := .empty,
    started := false, archGiven := false, compressedSeen := true }

theorem new_general (cs : Catalogs) :
    Session.new cs (.ofArch "rv64gc".toList) = .ok (generalStart cs) :=
  new_of_parse parse_generalIsa rfl

/-- The session after the label `a`. -/
def labelled (cs : Catalogs) : Session :=
  { generalStart cs with contents := ⟨#[], (∅ : Std.TreeMap String Nat).insert "a" 0⟩ }

theorem forM_addLabel (cs : Catalogs) :
    [Label.named "a"].forM addLabel (generalStart cs) = .ok () (labelled cs) := by
  rfl

/-- A branch to its own place, and one that reaches its target only as long as the first one is
long. -/
def overreaching : Section :=
  ⟨#[.branch (.new .shortBranch 0xc181 "a" 0) true,
      .branch (.new .shortBranch 0xc101 "a" 260) true],
    (∅ : Std.TreeMap String Nat).insert "a" 0⟩

/-- A compressed instruction with the fields of a branch and the opcode of none. -/
def unwidenable : Section :=
  ⟨#[.branch (.new .shortBranch 0x101 "a" 300) true], (∅ : Std.TreeMap String Nat).insert "a" 0⟩

/-! ### Sources with a defect -/

/-- **When a source that is accepted has a defect.** All numeric labels are found, the sizes settle,
and some branch has a length that does not reach its target, which takes an addend, or has to be
widened and cannot, which takes an instruction given field by field. -/
theorem finish_defect_iff {cs : Catalogs} (hcs : Catalogs.standard = .ok cs) {config : Config}
    {start s : Session} (hnew : Session.new cs config = .ok start) {texts : List (List Char)}
    (hrun : start.allStatements texts = .ok s) :
    (∃ d, s.finish = .error (.defect d)) ↔
      s.labels.unresolved? = none ∧ ∃ mid, s.contents.relax Section.maxPasses = (mid, true) ∧
        ∃ (i : Nat) (b : Branch) (relax : Bool), mid.items.toList[i]? = some (.branch b relax) ∧
          ((b.kind.reaches b.length (mid.distanceAt i b) = false ∧
              (s.contents.capacity < 2 ^ 63 → b.offset ≠ 0)) ∨
            (b.Narrow ∧
              ∃ text ∈ texts, ∃ fields, (Line.read text).statement = .fields fields)) := by
  have hsettled : Settled cs .basic false s :=
    (settled_new hnew false).allStatements hcs (fun hwide => by cases hwide) hrun
  have hlayout := Section.layout_defect_iff fun item hitem => (hsettled.items item hitem).isListed
  unfold finish
  cases hlabels : s.labels.unresolved? with
  | some n =>
    constructor
    · rintro ⟨d, h⟩
      cases h
    · rintro ⟨h, -⟩
      cases h
  | none =>
    constructor
    · intro hdefect
      obtain ⟨mid, hrelax, i, b, relax, hitem, hfails⟩ := hlayout.1 hdefect
      refine ⟨rfl, mid, hrelax, i, b, relax, hitem, ?_⟩
      rcases hfails with hreach | hnarrow
      · refine .inl ⟨hreach, fun hsize => ?_⟩
        exact Section.offset_ne_of_not_reaches (Section.sound_of_fresh hsettled.items) hsize hrelax
          hitem hreach
      · refine .inr ⟨hnarrow, ?_⟩
        -- Without such lines all words come from the instruction table, and can be widened.
        by_contra hfields
        have hwide : Settled cs .basic true s := by
          refine (settled_new hnew true).allStatements hcs ?_ hrun
          intro _ text htext fields hstatement
          exact hfields ⟨text, htext, fields, hstatement⟩
        have hkept := (Section.relax_keeps Section.maxPasses s.contents).2
        rw [hrelax] at hkept
        have hwidenable := Item.forall_of_map_appended Item.isWidenable_appended hkept
          (fun item hmem => (hwide.items item hmem).isWidenable) _ (List.mem_of_getElem? hitem)
        exact Branch.not_narrow_of_isWidenable hwidenable hnarrow
    · rintro ⟨-, mid, hrelax, i, b, relax, hitem, hfails⟩
      exact hlayout.2 ⟨mid, hrelax, i, b, relax, hitem, hfails.imp (·.1) (·.1)⟩

/-- A compressed instruction with the fields of a branch and the opcode of none, which would have to
be widened. -/
theorem finish_defect_iff_fields :
    ∃ cs start s, Catalogs.standard = .ok cs ∧
      Session.new cs (.ofArch "rv64gc".toList) = .ok start ∧
      start.allStatements ["a: .insn cb 1, 0, a0, a+300".toList] = .ok s ∧
      ∃ d, s.finish = .error (.defect d) := by
  obtain ⟨cs, hcs⟩ := Catalogs.exists_standard
  have hfields : (cs.fieldTypes.encode ⟨generalIsa, true, false, true, .basic⟩ "cb"
      "1, 0, a0, a+300".toList).toOption.map Encoded.outline =
        some (none, 0x101#64, some (.symbol "a" 300), some .rvcBranch) := by
    rw [Catalog.encode, Catalog.lookup_eq_filter (build_of_standard hcs).2,
      Catalog.templates_eq_map (build_of_standard hcs).2]
    decide +kernel
  have hread : Line.read "a: .insn cb 1, 0, a0, a+300".toList =
      ⟨[.named "a"], .fields "cb 1, 0, a0, a+300".toList⟩ := by decide +kernel
  have hword : Text.firstWord "cb 1, 0, a0, a+300".toList =
      ("cb".toList, "1, 0, a0, a+300".toList) := by decide +kernel
  have hline : line "a: .insn cb 1, 0, a0, a+300".toList (generalStart cs) =
      .ok () ((labelled cs).withBranch .shortBranch 0x101 "a" 300) :=
    line_of_fields hread (forM_addLabel cs) hword rfl (resolve_of_plain (by decide +kernel) _)
      hfields (by decide) rfl
  have hrun : (generalStart cs).allStatements ["a: .insn cb 1, 0, a0, a+300".toList] =
      .ok ((labelled cs).withBranch .shortBranch 0x101 "a" 300) := by
    unfold Session.allStatements
    rw [hline]
    rfl
  refine ⟨cs, _, _, hcs, new_general cs, hrun, (finish_defect_iff hcs (new_general cs) hrun).2 ?_⟩
  have hsettles : unwidenable.relax Section.maxPasses =
      ((unwidenable.relax Section.maxPasses).1, true) := Prod.ext rfl (by decide +kernel)
  have hitem : (unwidenable.relax Section.maxPasses).1.items.toList[0]? =
      some (.branch ⟨.shortBranch, 4, "a", 300, 0x101, .resolved⟩ true) := by decide +kernel
  refine ⟨rfl, _, hsettles, 0, _, true, hitem, .inr ⟨?_, ?_⟩⟩
  · refine ⟨rfl, by decide, by decide, ?_⟩
    intro w h
    cases h
  · exact ⟨_, List.mem_singleton_self _, _, congrArg Line.statement hread⟩

/-- **An accepted source with a branch out of reach.** The second branch is given two bytes while
the first one is still long; when the first one shrinks, its target moves away by the addend. -/
theorem accepted_source_overreaches :
    ∃ cs start s₁ s, Catalogs.standard = .ok cs ∧
      Session.new cs (.ofArch "rv64gc".toList) = .ok start ∧
      line "a: beqz a1, a".toList start = .ok () s₁ ∧
      line "beqz a0, a+260".toList s₁ = .ok () s ∧
      s.finish = .error (.defect (.cannotReach 2 (some 258))) := by
  obtain ⟨cs, hcs⟩ := Catalogs.exists_standard
  have hfirst : (cs.instructions.encode ⟨generalIsa, true, false, true, .basic⟩ "beqz"
      "a1, a".toList).toOption.map Encoded.outline =
        some (none, 0xc181#64, some (.symbol "a" 0), some .rvcBranch) := by
    rw [Catalog.encode, lookup_standard hcs]
    decide +kernel
  have hsecond : (cs.instructions.encode ⟨generalIsa, true, false, true, .basic⟩ "beqz"
      "a0, a+260".toList).toOption.map Encoded.outline =
        some (none, 0xc101#64, some (.symbol "a" 260), some .rvcBranch) := by
    rw [Catalog.encode, lookup_standard hcs]
    decide +kernel
  have hreadFirst : Line.read "a: beqz a1, a".toList =
      ⟨[.named "a"], .instruction "beqz" "a1, a".toList⟩ := by decide +kernel
  have hreadSecond : Line.read "beqz a0, a+260".toList =
      ⟨[], .instruction "beqz" "a0, a+260".toList⟩ := by decide +kernel
  have hline : line "a: beqz a1, a".toList (generalStart cs) =
      .ok () ((labelled cs).withBranch .shortBranch 0xc181 "a" 0) :=
    line_of_instruction hreadFirst (forM_addLabel cs) (resolve_of_plain (by decide +kernel) _)
      hfirst (by decide) rfl
  refine ⟨cs, _, _, _, hcs, new_general cs, hline, line_of_instruction hreadSecond rfl
    (resolve_of_plain (by decide +kernel) _) hsecond (by decide) rfl, ?_⟩
  change overreaching.layout.2 = _
  decide +kernel

end Session

end RiscvAssembler
