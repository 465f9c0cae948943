import RiscvAssembler.Proofs.Branch.Stray
import RiscvAssembler.Proofs.Pseudo.Words
import RiscvAssembler.Proofs.Section.Entries
import RiscvAssembler.Proofs.Word.Bytes

/-!
Layouts for a linker. If the items were appended so (`Linkable`), the relocations of a layout are for
bytes of their own (`LaidOut.pairwise_proper`), the field of each one is clear but for a distance that
was filled in and for stray bits of a branch that was widened (`LaidOut.wordAt_and_mask`), and a call
has its two words (`LaidOut.bytes_of_call`).
-/

namespace RiscvAssembler

/-! ### Fields of a layout -/

namespace Layout

/-- The word of some bytes at an address. -/
def wordAt (l : Layout) (offset size : Nat) : Word :=
  .ofBytes ((l.bytes.drop offset).take size)

/-- The relocations without the marks that code may be shortened. -/
def proper (l : Layout) : List Relocation :=
  l.fixups.filter (·.kind ≠ .relax)

/-- The field of a relocation: that of the distance if it is one of a branch to a symbol of the layout
and can hold the distance, and otherwise clear. -/
def fieldOf (l : Layout) (r : Relocation) : Word :=
  match BranchKind.ofReloc? r.kind, r.symbol.bind fun name => l.symbols.lookup name with
  | some k, some target =>
    let distance := Int64.ofNat target + r.addend - Int64.ofNat r.offset
    if k.immediate.fits distance then k.immediate.encode distance else 0
  | _, _ => 0

end Layout

/-- The bits that an item has in the field of its relocation. -/
def Item.strayBits (kind : RelocType) : Item → Word
  | .data .. => 0
  | .branch b _ => b.kind.strayBits b.insn kind

theorem Item.strayBits_appended (kind : RelocType) (item : Item) :
    item.appended.strayBits kind = item.strayBits kind := by
  cases item <;> rfl

/-! ### Items for a linker -/

open Expansion in
/-- An item leaves room for its relocation: the field is clear in its bytes, and no others are needed,
but for a call, which has the two words of its expansion. -/
inductive Item.Fits : Item → (next : Option Item) → Prop where
  | plain {bytes : List UInt8} {next : Option Item} : Fits (.data bytes none) next
  | field {bytes : List UInt8} {f : Fixup} {next : Option Item}
    (kind : BranchKind.ofReloc? f.kind = none) (size : f.kind.info.size = bytes.length)
    (length : bytes.length = 2 ∨ bytes.length = 4)
    (clear : Word.ofBytes bytes &&& f.kind.info.mask = 0) : Fits (.data bytes (some f)) next
  | call {f : Fixup} {link base : Nat} (kind : f.kind = .call ∨ f.kind = .callPlt)
    (hlink : link < 32) (hbase : base < 32) :
    Fits (.data ((upperWord base).toBytes 4) (some f))
      (some (.data ((jumpWord link base).toBytes 4) none))
  | branch {b : Branch} {relax : Bool} {next : Option Item}
    (clear : b.insn &&& b.kind.reloc.info.mask = 0) : Fits (.branch b relax) next

/-- Items that leave room for their relocations. -/
def Linkable : List Item → Prop
  | [] => True
  | item :: items => item.Fits items.head? ∧ Linkable items

section

variable {items items' : List Item} {item : Item} {next : Option Item}

theorem Item.Fits.mono (h : item.Fits none) : item.Fits next := by
  cases h with
  | plain => exact .plain
  | field kind size length clear => exact .field kind size length clear
  | branch clear => exact .branch clear

theorem Linkable.append (h : Linkable items) (h' : Linkable items') : Linkable (items ++ items') := by
  induction items with
  | nil => exact h'
  | cons item items ih =>
    refine ⟨?_, ih h.2⟩
    cases items with
    | nil => exact h.1.mono
    | cons next items => exact h.1

theorem linkable_of_forall (h : ∀ item ∈ items, item.Fits none) : Linkable items := by
  induction items with
  | nil => trivial
  | cons item items ih =>
    obtain ⟨hitem, hitems⟩ := List.forall_mem_cons.1 h
    exact ⟨hitem.mono, ih hitems⟩

theorem Linkable.getElem? (h : Linkable items) {i : Nat} (hi : items[i]? = some item) :
    item.Fits items[i + 1]? := by
  induction items generalizing i with
  | nil => cases hi
  | cons item₀ items ih =>
    cases i with
    | zero =>
      cases hi
      rw [List.getElem?_cons_succ, ← List.head?_eq_getElem?]
      exact h.1
    | succ i => exact ih h.2 hi

theorem Item.fits_appended_iff :
    item.appended.Fits (next.map Item.appended) ↔ item.Fits next := by
  constructor
  · intro h
    cases item with
    | data bytes fixup =>
      change Item.Fits (.data bytes fixup) _ at h
      generalize hnext : next.map Item.appended = next' at h
      cases h with
      | plain => exact .plain
      | field kind size length clear => exact .field kind size length clear
      | call kind hlink hbase =>
        obtain ⟨item, rfl, hitem⟩ := Option.map_eq_some_iff.1 hnext
        cases item with
        | data bytes fixup =>
          cases hitem
          exact .call kind hlink hbase
        | branch b relax => cases hitem
    | branch b relax =>
      change Item.Fits (.branch (.new b.kind b.insn b.target b.offset) relax) _ at h
      cases h with
      | branch clear => exact .branch clear
  · intro h
    cases h with
    | plain => exact .plain
    | field kind size length clear => exact .field kind size length clear
    | call kind hlink hbase => exact .call kind hlink hbase
    | branch clear => exact .branch clear

/-- Layout chooses lengths and leaves the room that items had. -/
theorem Linkable.of_map_appended (h : Linkable items')
    (hsame : items.map Item.appended = items'.map Item.appended) : Linkable items := by
  induction items generalizing items' with
  | nil => trivial
  | cons item items ih =>
    cases items' with
    | nil => cases hsame
    | cons item' items' =>
      obtain ⟨hitem, hitems⟩ := List.cons_eq_cons.1 hsame
      refine ⟨?_, ih h.2 hitems⟩
      rw [← Item.fits_appended_iff, ← List.head?_map, hitem, hitems, List.head?_map,
        Item.fits_appended_iff]
      exact h.1

theorem Item.Fits.inert (h : item.Fits next) : item.Inert := by
  cases h with
  | plain =>
    intro f hf
    cases hf
  | field kind _ _ _ =>
    intro f hf
    cases hf
    exact kind
  | call kind _ _ =>
    intro f hf
    cases hf
    rcases kind with h | h
    · rw [h]
      rfl
    · rw [h]
      rfl
  | branch _ => trivial

end

/-! ### Bytes of their own -/

section

variable {s : Section} {offsets : Array Nat} {start : Nat} {item : Item} {next : Option Item}
  {items : List Item} {piece : Piece} {pieces : List Piece} {o : Nat} {f : Fixup}

/-- A relocation is for bytes of its item, or for those of a call. -/
theorem Item.Fits.span (h : item.Fits next) (hplaced : item.Placed s offsets start piece)
    (hf : piece.fixup = some (o, f)) :
    f.kind ≠ .relax ∧ (o + f.kind.info.size ≤ start + item.size ∨
      ∃ bytes, next = some (.data bytes none) ∧
        o + f.kind.info.size ≤ start + item.size + bytes.length) := by
  cases h with
  | plain =>
    obtain rfl : piece = _ := hplaced
    cases hf
  | @field bytes f' _ kind size length _ =>
    obtain rfl : piece = _ := hplaced
    cases hf
    refine ⟨?_, .inl (Nat.le_of_eq (by rw [size]; rfl))⟩
    intro hrelax
    rw [hrelax] at size
    rcases length with h | h <;> rw [h] at size <;> cases size
  | call kind hlink hbase =>
    obtain rfl : piece = _ := hplaced
    cases hf
    rcases kind with h | h
    · rw [h]
      exact ⟨by decide, .inr ⟨_, rfl, by simp [RelocType.info, Item.size]⟩⟩
    · rw [h]
      exact ⟨by decide, .inr ⟨_, rfl, by simp [RelocType.info, Item.size]⟩⟩
  | branch clear =>
    obtain ⟨code, hb, hr, rfl⟩ := hplaced
    obtain ⟨k, hk, hpatch⟩ := Branch.reloc_of_bytes hr hb
    cases hf
    rw [hk]
    refine ⟨k.reloc_ne_relax, .inl ?_⟩
    rw [Nat.add_assoc, hpatch]
    rfl

theorem Item.Placed.le_of_fixup (h : item.Placed s offsets start piece)
    (hf : piece.fixup = some (o, f)) : start ≤ o := by
  cases item with
  | data bytes fixup =>
    obtain rfl : piece = _ := h
    obtain ⟨f', -, heq⟩ := Option.map_eq_some_iff.1 hf
    cases heq
    exact Nat.le_refl _
  | branch b relax =>
    obtain ⟨code, -, -, rfl⟩ := h
    cases hf
    exact Nat.le_add_right _ _

theorem PlacedFrom.le_of_mem (h : PlacedFrom s offsets start items pieces)
    (hmem : (o, f) ∈ pieces.filterMap Piece.fixup) : start ≤ o := by
  induction h with
  | nil => cases hmem
  | cons hplaced _ ih =>
    obtain ⟨piece', hpiece', hf⟩ := List.mem_filterMap.1 hmem
    rcases List.mem_cons.1 hpiece' with rfl | hrest
    · exact hplaced.le_of_fixup hf
    · exact Nat.le_trans (Nat.le_add_right _ _) (ih (List.mem_filterMap.2 ⟨piece', hrest, hf⟩))

/-- **Relocations are for bytes of their own**, in order, and none of them goes beyond the end. -/
theorem PlacedFrom.pairwise_fixups (h : PlacedFrom s offsets start items pieces)
    (hlink : Linkable items) :
    (pieces.filterMap Piece.fixup).Pairwise (fun p q => p.1 + p.2.kind.info.size ≤ q.1) ∧
      ∀ p ∈ pieces.filterMap Piece.fixup, p.2.kind ≠ .relax ∧
        p.1 + p.2.kind.info.size ≤ start + (items.map Item.size).sum := by
  induction h with
  | nil => exact ⟨.nil, List.forall_mem_nil _⟩
  | @cons start item items piece pieces hplaced hrest ih =>
    obtain ⟨hpairs, hbounds⟩ := ih hlink.2
    rw [List.map_cons, List.sum_cons, ← Nat.add_assoc]
    cases hfixup : piece.fixup with
    | none =>
      rw [List.filterMap_cons_none hfixup]
      exact ⟨hpairs, hbounds⟩
    | some p =>
      obtain ⟨o, f⟩ := p
      rw [List.filterMap_cons_some hfixup]
      obtain ⟨hrelax, hwithin⟩ := hlink.1.span hplaced hfixup
      -- What a relocation is for ends before all that comes after, and before the end.
      have hend : (∀ q ∈ pieces.filterMap Piece.fixup, o + f.kind.info.size ≤ q.1) ∧
          o + f.kind.info.size ≤ start + item.size + (items.map Item.size).sum := by
        rcases hwithin with hitem | ⟨bytes, hnext, hboth⟩
        · refine ⟨fun q hq => Nat.le_trans hitem (hrest.le_of_mem hq), ?_⟩
          exact Nat.le_trans hitem (Nat.le_add_right _ _)
        · cases hrest with
          | nil => cases hnext
          | @cons _ _ items piece' pieces hplaced' hrest' =>
            cases hnext
            obtain rfl : piece' = _ := hplaced'
            refine ⟨fun q hq => Nat.le_trans hboth (hrest'.le_of_mem hq), ?_⟩
            rw [List.map_cons, List.sum_cons, ← Nat.add_assoc]
            exact Nat.le_trans hboth (Nat.le_add_right _ _)
      refine ⟨List.pairwise_cons.2 ⟨hend.1, hpairs⟩, List.forall_mem_cons.2 ⟨⟨hrelax, hend.2⟩, ?_⟩⟩
      exact hbounds

end

/-! ### Layouts -/

namespace Section.LaidOut

variable {s s' mid : Section} {l : Layout} {pieces : List Piece}

theorem linkable (h : LaidOut s s' l mid pieces) (hlink : Linkable s.items.toList) :
    Linkable s'.items.toList :=
  hlink.of_map_appended h.appended

theorem inert (h : LaidOut s s' l mid pieces) (hlink : Linkable s.items.toList) :
    ∀ item ∈ s'.items.toList, item.Inert := by
  intro item hitem
  obtain ⟨i, hi⟩ := List.mem_iff_getElem?.1 hitem
  exact ((h.linkable hlink).getElem? hi).inert

/-- The relocations of a layout are those of its pieces, one each. -/
theorem proper_eq (h : LaidOut s s' l mid pieces) (hlink : Linkable s.items.toList) :
    l.proper = (pieces.filterMap Piece.fixup).map fun p =>
      ⟨p.1, p.2.kind, (Flat.reference p.2.target).1, (Flat.reference p.2.target).2⟩ := by
  obtain ⟨-, hbounds⟩ := h.placed.pairwise_fixups (h.linkable hlink)
  rw [Layout.proper, h.eq_of_assembled.2.1]
  generalize pieces.filterMap Piece.fixup = fixups at hbounds ⊢
  induction fixups with
  | nil => rfl
  | cons p fixups ih =>
    obtain ⟨hp, hfixups⟩ := List.forall_mem_cons.1 hbounds
    rw [List.flatMap_cons, List.filter_append, ih hfixups, List.map_cons]
    obtain ⟨o, kind, target, relaxable⟩ := p
    have hkind : kind ≠ .relax := hp.1
    cases relaxable <;> simp [Flat.entries, hkind]

/-- **The relocations of a layout are for bytes of their own.** -/
theorem pairwise_proper (h : LaidOut s s' l mid pieces) (hlink : Linkable s.items.toList) :
    l.proper.Pairwise (fun r r' => r.offset + r.kind.info.size ≤ r'.offset) ∧
      ∀ r ∈ l.proper, r.offset + r.kind.info.size ≤ l.bytes.length := by
  obtain ⟨hpairs, hbounds⟩ := h.placed.pairwise_fixups (h.linkable hlink)
  obtain ⟨outs, houts, hbytes⟩ := h.exists_filledFrom (h.inert hlink)
  rw [h.proper_eq hlink, hbytes, houts.length_flatten]
  refine ⟨List.pairwise_map.2 hpairs, ?_⟩
  intro r hr
  obtain ⟨p, hp, rfl⟩ := List.mem_map.1 hr
  simpa using (hbounds p hp).2

/-- Distances are those between the addresses of a layout. -/
theorem distance?_eq (h : LaidOut s s' l mid pieces) (hb : s.Bounded) (name : String)
    (addend : Int64) (o : Nat) :
    mid.distance? mid.offsets name addend o = (l.symbols.lookup name).map fun target =>
      Int64.ofNat target + addend - Int64.ofNat o := by
  rw [Section.distance?, Layout.distance?, h.address?, h.lookup_symbols hb]
  cases hi : s.symbols[name]? with
  | none => rfl
  | some i =>
    rw [Option.bind_some, if_pos (hb name i hi)]
    rfl

end Section.LaidOut

theorem Layout.fieldOf_eq_zero {l : Layout} {r : Relocation}
    (h : BranchKind.ofReloc? r.kind = none) : l.fieldOf r = 0 := by
  unfold fieldOf
  rw [h]

/-- The field of a branch is the one that is filled in. -/
theorem Layout.fieldOf_reloc (l : Layout) (k : BranchKind) (name : String) (addend : Int64)
    (o : Nat) :
    l.fieldOf ⟨o, k.reloc, some name, addend⟩ =
      (((l.symbols.lookup name).map fun target =>
        Int64.ofNat target + addend - Int64.ofNat o).bind k.reloc.branchBits?).getD 0 := by
  have hk : BranchKind.ofReloc? k.reloc = some k := BranchKind.ofReloc?_eq_some_iff.2 rfl
  unfold fieldOf
  dsimp only
  rw [hk, Option.bind_some]
  cases l.symbols.lookup name with
  | none => rfl
  | some target =>
    rw [Option.map_some, Option.bind_some, RelocType.branchBits?, hk]
    dsimp only
    split
    · rfl
    · rfl

namespace Section.LaidOut

variable {s s' mid : Section} {l : Layout} {pieces : List Piece}

/-- The word in the bytes of a branch that its relocation is for. -/
theorem wordAt_branch (h : LaidOut s s' l mid pieces) (hlink : Linkable s.items.toList)
    (hb : s.Bounded) {i : Nat} {b : Branch} {relax : Bool}
    (hi : s'.items.toList[i]? = some (.branch b relax)) {piece : Piece}
    (hplaced : (Item.branch b relax).Placed mid mid.offsets (startOf s'.items.toList i) piece)
    {o : Nat} {f : Fixup} (hf : piece.fixup = some (o, f)) :
    l.wordAt o f.kind.info.size &&& f.kind.info.mask =
      l.fieldOf ⟨o, f.kind, some b.target, b.offset⟩ ||| b.kind.strayBits b.insn f.kind := by
  have hclear : b.insn &&& b.kind.reloc.info.mask = 0 := by
    cases (h.linkable hlink).getElem? hi with
    | branch clear => exact clear
  obtain ⟨code, hbytes, hr, rfl⟩ := hplaced
  obtain ⟨k, before, w, hform, rfl⟩ := Branch.form_of_bytes hr hbytes
  cases hf
  dsimp only
  obtain ⟨k', before', w', hform', -, hout⟩ := h.filled (h.inert hlink) hi
  obtain ⟨rfl, rfl, rfl⟩ := hform.unique hform'
  have hlength : before.length + k.reloc.info.size = b.length := by
    simpa using Branch.length_bytes hr hbytes
  have hslice : (l.bytes.drop (startOf s'.items.toList i + before.length)).take k.reloc.info.size =
      (w ||| ((mid.distance? mid.offsets b.target b.offset
        (startOf s'.items.toList i + before.length)).bind k.reloc.branchBits?).getD 0).toBytes
          k.reloc.info.size := by
    have hdrop := congrArg (List.drop before.length) hout
    rw [List.drop_left, List.drop_take, List.drop_drop] at hdrop
    rw [← hdrop, show (Item.branch b relax).size = b.length from rfl, ← hlength,
      Nat.add_sub_cancel_left]
  have hfield : l.fieldOf ⟨startOf s'.items.toList i + before.length, k.reloc, some b.target,
      b.offset⟩ = ((mid.distance? mid.offsets b.target b.offset
        (startOf s'.items.toList i + before.length)).bind k.reloc.branchBits?).getD 0 := by
    rw [h.distance?_eq hb, l.fieldOf_reloc]
  rw [hfield, Layout.wordAt, hslice, Word.ofBytes_toBytes_and k.lowMask_and_mask,
    BitVec.and_or_distrib_right, hform.and_mask hclear hr, k.branchBits?_and_mask, BitVec.or_comm]

/-- The two words of a call. -/
theorem wordAt_call (h : LaidOut s s' l mid pieces) (hlink : Linkable s.items.toList) {i : Nat}
    {upper jump : Word} {f : Fixup}
    (hi : s'.items.toList[i]? = some (.data (upper.toBytes 4) (some f)))
    (hnext : s'.items.toList[i + 1]? = some (.data (jump.toBytes 4) none)) :
    (l.bytes.drop (startOf s'.items.toList i)).take 4 = upper.toBytes 4 ∧
      (l.bytes.drop (startOf s'.items.toList i + 4)).take 4 = jump.toBytes 4 := by
  have hfirst : (l.bytes.drop (startOf s'.items.toList i)).take (Item.size _) = upper.toBytes 4 :=
    h.filled (h.inert hlink) hi
  have hsecond : (l.bytes.drop (startOf s'.items.toList (i + 1))).take (Item.size _) =
      jump.toBytes 4 := h.filled (h.inert hlink) hnext
  rw [startOf_succ hi] at hsecond
  simp only [Item.size, Word.length_toBytes] at hfirst hsecond
  exact ⟨hfirst, hsecond⟩

end Section.LaidOut

open Expansion in
/-- The two words of a call leave the field of its relocation clear. -/
theorem Expansion.call_and_mask (link base : Nat) :
    Word.ofBytes ((upperWord base).toBytes 4 ++ (jumpWord link base).toBytes 4) &&&
      RelocType.call.info.mask = 0 := by
  have hupper : upperWord base &&& 0xfffff000 = 0 := Field.insert_and_of_apart (by decide) _ _
  have hjump : jumpWord link base &&& 0xfff00000 = 0 :=
    (Field.insert_and_of_apart (by decide) _ _).trans (Field.insert_and_of_apart (by decide) _ _)
  have hmask : RelocType.call.info.mask = (0xfffff000 : Word) ||| (0xfff00000 : Word) <<< 32 := by
    decide
  have hlow : Word.lowMask (8 * 4) &&& RelocType.call.info.mask = 0xfffff000 := by decide
  have hhigh : ∀ w : Word, w <<< 32 &&& RelocType.call.info.mask = (w &&& 0xfff00000) <<< 32 := by
    intro w
    have hpart : w <<< 32 &&& 0xfffff000 = 0 :=
      and_eq_zero_of_part (Word.shiftLeft_and_lowMask w 32) (by decide)
    rw [hmask, BitVec.and_or_distrib_left, hpart, BitVec.shiftLeft_and_distrib]
    exact BitVec.zero_or
  have hword : Word.lowMask (8 * 4) &&& 0xfff00000 = 0xfff00000 := by decide
  rw [Word.ofBytes_append, Word.ofBytes_toBytes, Word.ofBytes_toBytes, Word.length_toBytes,
    BitVec.and_or_distrib_right, BitVec.and_assoc, hlow, hupper, hhigh, BitVec.and_assoc, hword,
    hjump]
  rfl

namespace Section.LaidOut

variable {s s' mid : Section} {l : Layout} {pieces : List Piece}

/-- A relocation is that of the piece of an item. -/
theorem exists_of_mem_proper (h : LaidOut s s' l mid pieces) {r : Relocation} (hr : r ∈ l.proper) :
    ∃ (i : Nat) (item : Item) (piece : Piece) (f : Fixup), s'.items.toList[i]? = some item ∧
      item.Placed mid mid.offsets (startOf s'.items.toList i) piece ∧
      piece.fixup = some (r.offset, f) ∧
      r = ⟨r.offset, f.kind, (Flat.reference f.target).1, (Flat.reference f.target).2⟩ := by
  obtain ⟨hmem, hkind⟩ := List.mem_filter.1 hr
  obtain ⟨i, item, piece, ⟨o, f⟩, hitem, hplaced, hfixup, hentry⟩ := h.mem_fixups_iff.1 hmem
  obtain rfl := Flat.eq_of_mem_entries hentry (of_decide_eq_true hkind)
  exact ⟨i, item, piece, f, hitem, hplaced, hfixup, rfl⟩

/-- A relocation is for bytes that start within an item. -/
theorem lt_of_fixup (h : LaidOut s s' l mid pieces) (hlink : Linkable s.items.toList) {i : Nat}
    {item : Item} (hitem : s'.items.toList[i]? = some item) {piece : Piece}
    (hplaced : item.Placed mid mid.offsets (startOf s'.items.toList i) piece) {o : Nat} {f : Fixup}
    (hfixup : piece.fixup = some (o, f)) : o < startOf s'.items.toList (i + 1) := by
  have hfits := (h.linkable hlink).getElem? hitem
  rw [startOf_succ hitem]
  generalize s'.items.toList[i + 1]? = next at hfits
  cases hfits with
  | plain =>
    obtain rfl : piece = _ := hplaced
    cases hfixup
  | field _ _ length _ =>
    obtain rfl : piece = _ := hplaced
    cases hfixup
    exact Nat.lt_add_of_pos_right (by simp only [Item.size]; omega)
  | call _ _ _ =>
    obtain rfl : piece = _ := hplaced
    cases hfixup
    exact Nat.lt_add_of_pos_right (by simp [Item.size])
  | @branch b _ _ _ =>
    obtain ⟨code, hb, hreach, rfl⟩ := hplaced
    obtain ⟨k, -, hpatch⟩ := Branch.reloc_of_bytes hreach hb
    have hpos := k.size_reloc_pos
    cases hfixup
    simp only [Item.size]
    omega

/-- **What a linker finds at a relocation:** the distance of a branch that is in sight and in reach,
and otherwise nothing in the field, but for stray bits of a branch that was widened. -/
theorem wordAt_and_mask (h : LaidOut s s' l mid pieces) (hlink : Linkable s.items.toList)
    (hb : s.Bounded) {r : Relocation} (hr : r ∈ l.proper) :
    ∃ (i : Nat) (item : Item), s.items.toList[i]? = some item ∧
      startOf s'.items.toList i ≤ r.offset ∧ r.offset < startOf s'.items.toList (i + 1) ∧
      l.wordAt r.offset r.kind.info.size &&& r.kind.info.mask =
        l.fieldOf r ||| item.strayBits r.kind := by
  obtain ⟨i, item, piece, f, hitem, hplaced, hfixup, hr⟩ := h.exists_of_mem_proper hr
  obtain ⟨item₀, hitem₀, hsame⟩ := h.exists_of_getElem? hitem
  refine ⟨i, item₀, hitem₀, hplaced.le_of_fixup hfixup, h.lt_of_fixup hlink hitem hplaced hfixup, ?_⟩
  rw [← Item.strayBits_appended, ← hsame, Item.strayBits_appended]
  generalize r.offset = o at hfixup hr
  subst hr
  have hfits := (h.linkable hlink).getElem? hitem
  generalize hnext : s'.items.toList[i + 1]? = next at hfits
  cases hfits with
  | plain =>
    obtain rfl : piece = _ := hplaced
    cases hfixup
  | @field bytes f' _ kind size length clear =>
    obtain rfl : piece = _ := hplaced
    cases hfixup
    have hbytes : (l.bytes.drop (startOf s'.items.toList i)).take bytes.length = bytes :=
      h.filled (h.inert hlink) hitem
    rw [Layout.fieldOf_eq_zero kind, Layout.wordAt, size, hbytes, clear]
    exact BitVec.or_zero.symm
  | @call f' link base kind hlink' hbase =>
    obtain rfl : piece = _ := hplaced
    cases hfixup
    obtain ⟨hupper, hjump⟩ := h.wordAt_call hlink hitem hnext
    have hinfo : f.kind.info.size = 8 ∧ f.kind.info.mask = RelocType.call.info.mask ∧
        BranchKind.ofReloc? f.kind = none := by
      rcases kind with hk | hk <;> rw [hk] <;> exact ⟨rfl, rfl, rfl⟩
    have hboth := List.take_add (l := l.bytes.drop (startOf s'.items.toList i)) (i := 4) (j := 4)
    rw [List.drop_drop, hupper, hjump] at hboth
    rw [Layout.fieldOf_eq_zero hinfo.2.2, Layout.wordAt, hinfo.1, hinfo.2.1, hboth,
      Expansion.call_and_mask]
    exact BitVec.or_zero.symm
  | @branch b relax _ clear =>
    have hword := h.wordAt_branch hlink hb hitem hplaced hfixup
    obtain ⟨code, -, -, rfl⟩ := hplaced
    cases hfixup
    exact hword

open Expansion in
/-- **What a linker finds at a call:** its two words, through the same register. -/
theorem bytes_of_call (h : LaidOut s s' l mid pieces) (hlink : Linkable s.items.toList)
    {r : Relocation} (hr : r ∈ l.proper) (hcall : r.kind = .call ∨ r.kind = .callPlt) :
    ∃ link base, link < 32 ∧ base < 32 ∧
      (l.bytes.drop r.offset).take 4 = (upperWord base).toBytes 4 ∧
      (l.bytes.drop (r.offset + 4)).take 4 = (jumpWord link base).toBytes 4 := by
  obtain ⟨i, item, piece, f, hitem, hplaced, hfixup, hr⟩ := h.exists_of_mem_proper hr
  replace hcall : f.kind = .call ∨ f.kind = .callPlt := by
    rw [hr] at hcall
    exact hcall
  generalize r.offset = o at hfixup ⊢
  have hfits := (h.linkable hlink).getElem? hitem
  generalize hnext : s'.items.toList[i + 1]? = next at hfits
  cases hfits with
  | plain =>
    obtain rfl : piece = _ := hplaced
    cases hfixup
  | field _ size length _ =>
    obtain rfl : piece = _ := hplaced
    cases hfixup
    have hsize : f.kind.info.size = 8 := by rcases hcall with hk | hk <;> rw [hk] <;> rfl
    omega
  | @call f' link base _ hlink' hbase =>
    obtain rfl : piece = _ := hplaced
    cases hfixup
    exact ⟨link, base, hlink', hbase, h.wordAt_call hlink hitem hnext⟩
  | branch _ =>
    obtain ⟨code, hb, hreach, rfl⟩ := hplaced
    obtain ⟨k, hk, -⟩ := Branch.reloc_of_bytes hreach hb
    cases hfixup
    dsimp only at hcall
    rw [hk] at hcall
    cases k <;> rcases hcall with hcall | hcall <;> cases hcall

end Section.LaidOut

end RiscvAssembler
