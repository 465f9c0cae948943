import RiscvAssembler.Proofs.Section.Filling
import RiscvAssembler.Proofs.Section.Relaxation

/-!
The relocations of a layout. Each one comes from the piece of an item (`LaidOut.mem_fixups_iff`) and
lies among the bytes of that item (`Item.Placed.within`), so the address of a relocation tells its
item. Data keeps the relocation it was appended with, and a branch has one against its target.
-/

namespace RiscvAssembler

theorem PlacedFrom.getElem?_pieces {s : Section} {offsets : Array Nat} {start : Nat}
    {items : List Item} {pieces : List Piece} (h : PlacedFrom s offsets start items pieces)
    {i : Nat} {piece : Piece} (hi : pieces[i]? = some piece) :
    ∃ item, items[i]? = some item ∧ item.Placed s offsets (start + startOf items i) piece := by
  have hlength : pieces.length = items.length := by
    simpa using congrArg List.length h.length_bytes
  obtain ⟨hlt, -⟩ := List.getElem?_eq_some_iff.1 hi
  obtain ⟨piece', hpiece', hplaced⟩ :=
    h.getElem? (List.getElem?_eq_getElem (Nat.lt_of_lt_of_eq hlt hlength))
  cases hi.symm.trans hpiece'
  exact ⟨_, List.getElem?_eq_getElem _, hplaced⟩

/-- The relocation of a branch is one of its own. -/
theorem Branch.reloc_of_bytes {b : Branch} {code : BranchCode} {distance : Option Int64}
    (hr : b.kind.reaches b.length distance = true) (h : b.bytes = .ok code) :
    ∃ k : BranchKind, code.kind = k.reloc ∧
      code.patchOffset + k.reloc.info.size = b.length := by
  have hlength := length_bytes hr h
  obtain ⟨k, before, w, -, rfl⟩ := form_of_bytes hr h
  exact ⟨k, rfl, by simpa using hlength⟩

theorem BranchKind.size_reloc_pos (k : BranchKind) : 0 < k.reloc.info.size := by
  cases k <;> decide

/-- What an item refers to: a symbol, if it is not to a constant, and what is added to it. -/
def Item.reference? : Item → Option (Option String × Int64)
  | .data _ fixup => fixup.map fun f => Flat.reference f.target
  | .branch b _ => some (some b.target, b.offset)

theorem Item.reference?_appended (item : Item) : item.appended.reference? = item.reference? := by
  cases item <;> rfl

theorem Item.size_appended_pos {item : Item} (h : 0 < item.size) : 0 < item.appended.size := by
  cases item with
  | data bytes fixup => exact h
  | branch b relax => simp [Item.appended, Item.size, Branch.new]

section

variable {s : Section} {offsets : Array Nat} {start : Nat} {item : Item} {piece : Piece}

/-- The relocation of a piece stands among its bytes. -/
theorem Item.Placed.within (h : item.Placed s offsets start piece) (hsize : 0 < item.appended.size)
    {o : Nat} {f : Fixup} (hf : piece.fixup = some (o, f)) : start ≤ o ∧ o < start + item.size := by
  cases item with
  | data bytes fixup =>
    obtain rfl : piece = _ := h
    obtain ⟨f', -, heq⟩ := Option.map_eq_some_iff.1 hf
    cases heq
    exact ⟨Nat.le_refl _, Nat.lt_add_of_pos_right hsize⟩
  | branch b relax =>
    obtain ⟨code, hb, hr, rfl⟩ := h
    obtain ⟨k, -, hpatch⟩ := Branch.reloc_of_bytes hr hb
    have hpos := k.size_reloc_pos
    cases hf
    simp only [Item.size]
    omega

/-- The relocation of a piece is against what the item refers to. -/
theorem Item.Placed.reference? (h : item.Placed s offsets start piece) {o : Nat} {f : Fixup}
    (hf : piece.fixup = some (o, f)) : item.reference? = some (Flat.reference f.target) := by
  cases item with
  | data bytes fixup =>
    obtain rfl : piece = _ := h
    obtain ⟨f', rfl, heq⟩ := Option.map_eq_some_iff.1 hf
    cases heq
    rfl
  | branch b relax =>
    obtain ⟨code, -, -, rfl⟩ := h
    cases hf
    rfl

theorem Item.Placed.exists_fixup (h : item.Placed s offsets start piece)
    {reference : Option String × Int64} (href : item.reference? = some reference) :
    ∃ o f, piece.fixup = some (o, f) ∧ Flat.reference f.target = reference := by
  cases hfixup : piece.fixup with
  | some fixup =>
    have href' := h.reference? hfixup
    rw [href] at href'
    exact ⟨fixup.1, fixup.2, rfl, (Option.some.inj href').symm⟩
  | none =>
    cases item with
    | data bytes fixup =>
      obtain rfl : piece = _ := h
      obtain ⟨f, rfl, -⟩ := Option.map_eq_some_iff.1 href
      cases hfixup
    | branch b relax =>
      obtain ⟨code, -, -, rfl⟩ := h
      cases hfixup

end

/-- An entry that is no mark is that of the relocation itself. -/
theorem Flat.eq_of_mem_entries {o : Nat} {f : Fixup} {r : Relocation} (h : r ∈ entries (o, f))
    (hkind : r.kind ≠ .relax) : r = ⟨o, f.kind, (reference f.target).1, (reference f.target).2⟩ := by
  rcases List.mem_cons.1 h with h | h
  · exact h
  · split at h
    · rw [List.mem_singleton.1 h] at hkind
      exact absurd rfl hkind
    · cases h

namespace Section.LaidOut

variable {s s' mid : Section} {l : Layout} {pieces : List Piece}

/-- The relocations of a layout are those of its pieces. -/
theorem mem_fixups_iff (h : LaidOut s s' l mid pieces) {r : Relocation} :
    r ∈ l.fixups ↔ ∃ (i : Nat) (item : Item) (piece : Piece) (fixup : Nat × Fixup),
      s'.items.toList[i]? = some item ∧
        item.Placed mid mid.offsets (startOf s'.items.toList i) piece ∧
        piece.fixup = some fixup ∧ r ∈ Flat.entries fixup := by
  rw [h.eq_of_assembled.2.1, List.mem_flatMap]
  simp only [List.mem_filterMap]
  constructor
  · rintro ⟨fixup, ⟨piece, hmem, hfixup⟩, hr⟩
    obtain ⟨i, hi⟩ := List.mem_iff_getElem?.1 hmem
    obtain ⟨item, hitem, hplaced⟩ := h.placed.getElem?_pieces hi
    rw [Nat.zero_add] at hplaced
    exact ⟨i, item, piece, fixup, hitem, hplaced, hfixup, hr⟩
  · rintro ⟨i, item, piece, fixup, hitem, hplaced, hfixup, hr⟩
    obtain ⟨piece', hpiece', hplaced'⟩ := h.placed.getElem? hitem
    rw [Nat.zero_add] at hplaced'
    have hsame : piece' = piece := by
      cases item with
      | data bytes f => exact hplaced'.trans hplaced.symm
      | branch b relax =>
        obtain ⟨code, hb, -, rfl⟩ := hplaced
        obtain ⟨code', hb', -, rfl⟩ := hplaced'
        cases hb.symm.trans hb'
        rfl
    subst hsame
    exact ⟨fixup, ⟨piece', List.mem_of_getElem? hpiece', hfixup⟩, hr⟩

theorem getElem?_appended (h : LaidOut s s' l mid pieces) (i : Nat) :
    s'.items.toList[i]?.map Item.appended = s.items.toList[i]?.map Item.appended := by
  rw [← List.getElem?_map, ← List.getElem?_map, h.appended]

/-- Data is laid out as it was appended. -/
theorem getElem?_data_iff (h : LaidOut s s' l mid pieces) {i : Nat} {bytes : List UInt8}
    {fixup : Option Fixup} :
    s'.items.toList[i]? = some (.data bytes fixup) ↔
      s.items.toList[i]? = some (.data bytes fixup) := by
  have hdata : ∀ items : List Item, items[i]? = some (.data bytes fixup) ↔
      items[i]?.map Item.appended = some (.data bytes fixup) := by
    intro items
    rw [Option.map_eq_some_iff]
    constructor
    · exact fun hi => ⟨_, hi, rfl⟩
    · rintro ⟨item, hitem, happended⟩
      cases item with
      | data bytes' fixup' =>
        cases happended
        exact hitem
      | branch b relax => cases happended
  rw [hdata, hdata, h.getElem?_appended]

/-- Items refer to what they were appended with. -/
theorem exists_of_getElem? (h : LaidOut s s' l mid pieces) {i : Nat} {item : Item}
    (hi : s'.items.toList[i]? = some item) :
    ∃ item₀, s.items.toList[i]? = some item₀ ∧ item.appended = item₀.appended := by
  have happended := h.getElem?_appended i
  rw [hi, Option.map_some] at happended
  obtain ⟨item₀, hitem₀, hsame⟩ := Option.map_eq_some_iff.1 happended.symm
  exact ⟨item₀, hitem₀, hsame.symm⟩

/-- **Where a relocation comes from.** It stands in the item that has its reference; and if it is
none of a branch, it stands at the start of data that has it. -/
theorem reference_of_mem_fixups (h : LaidOut s s' l mid pieces)
    (hpos : ∀ item ∈ s.items.toList, 0 < item.size) {r : Relocation} (hr : r ∈ l.fixups)
    (hkind : r.kind ≠ .relax) :
    ∃ (i : Nat) (item : Item), s.items.toList[i]? = some item ∧
      item.reference? = some (r.symbol, r.addend) ∧ startOf s'.items.toList i ≤ r.offset ∧
      r.offset < startOf s'.items.toList (i + 1) ∧
      (BranchKind.ofReloc? r.kind = none → ∃ bytes f, item = .data bytes (some f) ∧
        f.kind = r.kind ∧ r.offset = startOf s'.items.toList i) := by
  obtain ⟨i, item, piece, ⟨o, f⟩, hitem, hplaced, hfixup, hentry⟩ := h.mem_fixups_iff.1 hr
  obtain ⟨item₀, hitem₀, hsame⟩ := h.exists_of_getElem? hitem
  have hpos₀ := Item.size_appended_pos (hpos item₀ (List.mem_of_getElem? hitem₀))
  obtain ⟨hle, hlt⟩ := hplaced.within (hsame ▸ hpos₀) hfixup
  obtain rfl := Flat.eq_of_mem_entries hentry hkind
  refine ⟨i, item₀, hitem₀, ?_, hle, ?_, ?_⟩
  · rw [← Item.reference?_appended, ← hsame, Item.reference?_appended]
    exact hplaced.reference? hfixup
  · rw [startOf_succ hitem]
    exact hlt
  · intro hnone
    cases item with
    | data bytes fixup =>
      obtain rfl : piece = _ := hplaced
      obtain ⟨f', rfl, heq⟩ := Option.map_eq_some_iff.1 hfixup
      cases heq
      cases item₀ with
      | data bytes₀ fixup₀ =>
        cases hsame
        exact ⟨bytes, f, rfl, rfl, rfl⟩
      | branch b₀ relax₀ => cases hsame
    | branch b relax =>
      obtain ⟨code, hb, hreach, rfl⟩ := hplaced
      obtain ⟨k, hk, -⟩ := Branch.reloc_of_bytes hreach hb
      cases hfixup
      rw [hk, BranchKind.ofReloc?_eq_some_iff.2 rfl] at hnone
      cases hnone

/-- An item with a reference has a relocation with it. -/
theorem exists_mem_fixups (h : LaidOut s s' l mid pieces)
    (hpos : ∀ item ∈ s.items.toList, 0 < item.size) {i : Nat} {item : Item}
    (hi : s.items.toList[i]? = some item) {reference : Option String × Int64}
    (href : item.reference? = some reference) :
    ∃ r ∈ l.fixups, r.symbol = reference.1 ∧ r.addend = reference.2 ∧
      startOf s'.items.toList i ≤ r.offset ∧ r.offset < startOf s'.items.toList (i + 1) ∧
      ∀ bytes f, item = .data bytes (some f) →
        r.kind = f.kind ∧ r.offset = startOf s'.items.toList i := by
  have happended := h.getElem?_appended i
  rw [hi, Option.map_some] at happended
  obtain ⟨item', hitem', hsame⟩ := Option.map_eq_some_iff.1 happended
  have hpos' := Item.size_appended_pos (hpos item (List.mem_of_getElem? hi))
  obtain ⟨piece, -, hplaced⟩ := h.placed.getElem? hitem'
  rw [Nat.zero_add] at hplaced
  have href' : item'.reference? = some reference := by
    rw [← Item.reference?_appended, hsame, Item.reference?_appended, href]
  obtain ⟨o, f, hfixup, hreference⟩ := hplaced.exists_fixup href'
  obtain ⟨hle, hlt⟩ := hplaced.within (hsame ▸ hpos') hfixup
  refine ⟨⟨o, f.kind, reference.1, reference.2⟩, h.mem_fixups_iff.2
    ⟨i, item', piece, (o, f), hitem', hplaced, hfixup, ?_⟩, rfl, rfl, hle, ?_, ?_⟩
  · rw [← hreference]
    exact List.mem_cons_self
  · rw [startOf_succ hitem']
    exact hlt
  · rintro bytes f₀ rfl
    cases item' with
    | data bytes' fixup' =>
      cases hsame
      obtain rfl : piece = _ := hplaced
      cases hfixup
      exact ⟨rfl, rfl⟩
    | branch b relax => cases hsame

/-- An address tells the item that it stands in. -/
theorem index_of_within {items : List Item} {i a b o : Nat} (hle : startOf items i ≤ o)
    (hlt : o < startOf items (i + 1)) (ha : startOf items a ≤ o) (hb : o < startOf items b) :
    a ≤ i ∧ i < b := by
  constructor
  · by_contra h
    have hia : i + 1 ≤ a := by omega
    have := startOf_mono items hia
    omega
  · by_contra h
    have := startOf_mono items (Nat.le_of_not_lt h)
    omega

end Section.LaidOut

end RiscvAssembler
