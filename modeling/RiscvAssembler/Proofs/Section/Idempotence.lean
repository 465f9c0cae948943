import RiscvAssembler.Proofs.Section.Success

/-!
Layout of a section that was laid out. A layout that succeeds leaves the section in its final form
(`Final`): every branch is emitted, every item has its piece at its address, and the pieces make up
the layout. Passes leave emitted branches alone and emission finds the pieces that are there, so a
section in its final form is laid out to itself (`Final.layout_eq`).
-/

namespace RiscvAssembler

/-- Nothing is left to do for an item: a branch has its bytes out. -/
def Item.Emitted : Item → Prop
  | .data .. => True
  | .branch b _ => b.state = .emitted

namespace Section

variable {s t : Section} {offsets : Array Nat} {start : Nat} {item : Item} {items : List Item}
  {piece : Piece} {pieces : List Piece}

/-! ### Passes -/

theorem tightenItem_of_emitted (h : item.Emitted) : s.tightenItem offsets start item = item := by
  cases item with
  | data bytes fixup => rfl
  | branch b relax =>
    have hstate : b.state = .emitted := h
    rw [tightenItem, Branch.tighten, if_pos hstate]

/-- A pass changes nothing once all branches are emitted. -/
theorem tighten_of_emitted (h : ∀ item ∈ s.items.toList, item.Emitted) : s.tighten = s := by
  have hitems : s.tighten.items = s.items := by
    refine Array.toList_inj.1 (List.ext_getElem? fun i => ?_)
    rw [getElem?_items_tighten]
    cases hitem : s.items.toList[i]? with
    | none => rfl
    | some item =>
      rw [Option.map_some, tightenItem_of_emitted (h item (List.mem_of_getElem? hitem))]
  rw [Section.mk.injEq]
  exact ⟨hitems, rfl⟩

theorem relax_of_emitted (h : ∀ item ∈ s.items.toList, item.Emitted) (n : Nat) :
    s.relax (n + 1) = (s, true) := by
  rw [relax, tighten_of_emitted h]
  exact if_pos rfl

/-! ### Emission -/

/-- One item: emission leaves a branch emitted. -/
theorem emitted_of_emitItem {item' : Item}
    (h : s.emitItem offsets start item = .ok (item', piece)) : item'.Emitted := by
  cases item with
  | data bytes fixup =>
    cases h
    trivial
  | branch b relax =>
    obtain ⟨⟨b', code⟩, hemit, h⟩ := bind_eq_ok_iff.1 h
    cases h
    obtain ⟨-, -, -, rfl⟩ := Branch.emit_eq_ok_iff.1 hemit
    rfl

/-- All items: emission that succeeds leaves every branch emitted. -/
theorem emitted_of_emitItems {items' : List Item}
    (h : s.emitItems offsets start items = (items', .ok pieces)) :
    ∀ item ∈ items', item.Emitted := by
  induction items generalizing start items' pieces with
  | nil =>
    cases h
    intro item hitem
    cases hitem
  | cons item items ih =>
    unfold emitItems at h
    cases hhere : s.emitItem offsets start item with
    | error d => simp [hhere] at h
    | ok pair =>
      obtain ⟨item', piece⟩ := pair
      cases hrest : s.emitItems offsets (start + item.size) items with
      | mk rest outcome =>
        simp only [hhere, hrest, Prod.mk.injEq] at h
        obtain ⟨rfl, houtcome⟩ := h
        cases outcome with
        | error d => cases houtcome
        | ok more => exact List.forall_mem_cons.2 ⟨emitted_of_emitItem hhere, ih hrest⟩

/-- One item: emission of an emitted branch gives the piece that it has. -/
theorem emitItem_of_placed (hplaced : item.Placed s offsets start piece) (hemitted : item.Emitted) :
    s.emitItem offsets start item = .ok (item, piece) := by
  cases item with
  | data bytes fixup =>
    obtain rfl : piece = _ := hplaced
    rfl
  | branch b relax =>
    obtain ⟨code, hcode, hreaches, rfl⟩ := hplaced
    have hstate : b.state = .emitted := hemitted
    have hsame : b = { b with state := .emitted } := by rw [← hstate]
    have hemit : b.emit (s.distance? offsets b.target b.offset start) = .ok (b, code) :=
      Branch.emit_eq_ok_iff.2 ⟨by rw [hstate]; decide, hreaches, hcode, hsame⟩
    exact bind_eq_ok_iff.2 ⟨(b, code), hemit, rfl⟩

/-- All items: emission of emitted branches gives the pieces that they have. -/
theorem emitItems_of_placed (hplaced : PlacedFrom s offsets start items pieces)
    (hemitted : ∀ item ∈ items, item.Emitted) :
    s.emitItems offsets start items = (items, .ok pieces) := by
  induction hplaced with
  | nil => rfl
  | cons hhere _ ih =>
    obtain ⟨hhead, htail⟩ := List.forall_mem_cons.1 hemitted
    simp only [emitItems, emitItem_of_placed hhere hhead, ih htail, Except.map]

/-! ### Sections with the same symbols -/

theorem address?_congr (h : t.symbols = s.symbols) : t.address? = s.address? := by
  funext offsets name
  unfold address?
  rw [h]

theorem distance?_congr (h : t.symbols = s.symbols) : t.distance? = s.distance? := by
  funext offsets name addend start
  unfold distance?
  rw [address?_congr h]

theorem placed_congr (h : t.symbols = s.symbols) (hplaced : item.Placed s offsets start piece) :
    item.Placed t offsets start piece := by
  cases item with
  | data bytes fixup => exact hplaced
  | branch b relax =>
    unfold Item.Placed
    rw [distance?_congr h]
    exact hplaced

theorem placedFrom_congr (h : t.symbols = s.symbols)
    (hplaced : PlacedFrom s offsets start items pieces) :
    PlacedFrom t offsets start items pieces := by
  induction hplaced with
  | nil => exact .nil
  | cons hhere _ ih => exact .cons (placed_congr h hhere) ih

theorem assemblePieces_congr (h : t.symbols = s.symbols) (offsets : Array Nat)
    (pieces : List Piece) : t.assemblePieces offsets pieces = s.assemblePieces offsets pieces := by
  unfold assemblePieces
  rw [address?_congr h, h]

/-! ### Final sections -/

/-- A section in its final form, with the layout that it has. -/
structure Final (s : Section) (l : Layout) (pieces : List Piece) : Prop where
  emitted : ∀ item ∈ s.items.toList, item.Emitted
  placed : PlacedFrom s s.offsets 0 s.items.toList pieces
  assembled : s.assemblePieces s.offsets pieces = .ok l

/-- A final section is laid out to itself. -/
theorem Final.layout_eq {l : Layout} (h : s.Final l pieces) : s.layout = (s, .ok l) := by
  unfold layout
  rw [maxPasses, relax_of_emitted h.emitted]
  simp only [emitItems_of_placed h.placed h.emitted, h.assembled, Array.toArray_toList]
  rfl

/-- **A layout that succeeds leaves a final section.** -/
theorem final_of_layout {s' : Section} {l : Layout} (h : s.layout = (s', .ok l)) :
    ∃ pieces, s'.Final l pieces := by
  obtain ⟨mid, pieces, hlaid⟩ := laidOut_of_layout h
  have hsymbols : s'.symbols = mid.symbols := hlaid.symbols.trans hlaid.symbols_mid.symm
  have hoffsets : s'.offsets = mid.offsets := offsets_congr hlaid.sizes
  refine ⟨pieces, ?_, ?_, ?_⟩
  · -- Emission did not fail, as there is a layout.
    have hleft : s' = _ := (congrArg Prod.fst h).symm.trans (layout_fst_of_settled hlaid.settled)
    cases hemit : mid.emitItems mid.offsets 0 mid.items.toList with
    | mk items outcome =>
      cases outcome with
      | error d => simp [layout, hlaid.settled, hemit] at h
      | ok pieces' =>
        rw [hleft, hemit]
        exact emitted_of_emitItems hemit
  · rw [hoffsets]
    exact placedFrom_congr hsymbols hlaid.placed
  · rw [hoffsets, assemblePieces_congr hsymbols]
    exact hlaid.assembled

/-- **Layout is idempotent.** Whatever was appended, defined and laid out before: once a section is
laid out, layout gives the same bytes, relocations and symbols again, and changes nothing in the
section. -/
theorem layout_idempotent {l : Layout} (h : s.layout.2 = .ok l) :
    s.layout.1.layout = (s.layout.1, .ok l) := by
  obtain ⟨pieces, hfinal⟩ := final_of_layout (Prod.ext rfl h)
  exact hfinal.layout_eq

/-- Branches forth and back, two with addends: the first two are emitted before the others come,
and the first one already with eight bytes, as its target was not in sight. -/
def regrownEvents : List SectionEvent :=
  [.grow (.define "a"), .grow (.branch 0xb50063 .branch (.symbol "b" 0) true),
    .grow (.branch 0xc001 .rvcBranch (.symbol "a" 4) true), .layout,
    .grow (.data (List.replicate 300 0) (some ⟨.jal, .symbol "a" 2, false⟩)), .grow (.define "b"),
    .grow (.branch 0xe001 .rvcBranch (.symbol "a" 8) true),
    .grow (.branch 0xa001 .rvcJump (.symbol "b" 0) false)]

theorem layout_idempotent_regrownEvents :
    ∃ l, (live regrownEvents).layout.2 = .ok l ∧
      (live regrownEvents).branches.map Branch.state =
        [.emitted, .emitted, .unresolved, .unresolved] ∧
      (live regrownEvents).layout.1.sizes = [8, 2, 300, 4, 2] ∧
      (live regrownEvents).layout.1.layout = ((live regrownEvents).layout.1, .ok l) := by
  obtain ⟨l, hl⟩ : ∃ l, (live regrownEvents).layout.2 = .ok l :=
    exists_ok_of_isOk (by decide +kernel)
  exact ⟨l, hl, by decide +kernel, by decide +kernel, layout_idempotent hl⟩

end Section

end RiscvAssembler
