import Mathlib.Data.List.Forall2
import RiscvAssembler.Proofs.Except
import RiscvAssembler.Proofs.Section.Stream

/-!
Layout against a flat reference. The reference takes the operations one by one and knows the code of
each branch beforehand: bytes go at the end of the bytes so far, a relocation is noted at its
address at once, and a symbol stands at the number of bytes before it. Nothing in it moves later.

`layout_refines_flat`: a layout of the stored form, with its merged fragments and its places in
them, is the reference run on the code of its branches.
-/

namespace RiscvAssembler

/-! ### The reference -/

/-- Output whose addresses are final from the start. -/
structure Flat where
  bytes : List UInt8
  fixups : List (Nat × Fixup)
  symbols : List (String × Nat)
  /-- The code of the branches to come. -/
  codes : List BranchCode
deriving DecidableEq, Repr

namespace Flat

/-- The output with a relocation, perhaps, and bytes appended. -/
def append (f : Flat) (bytes : List UInt8) (fixup : Option (Nat × Fixup)) : Flat :=
  { f with bytes := f.bytes ++ bytes, fixups := f.fixups ++ fixup.toList }

/-- The output after an operation. -/
def place (f : Flat) (op : SectionOp) : Flat :=
  match op.item? with
  | some (.data bytes fixup) => f.append bytes (fixup.map (f.bytes.length, ·))
  | some (.branch b relax) =>
    match f.codes with
    | [] => f
    | code :: codes =>
      { f with codes := codes }.append code.bytes (some (f.bytes.length + code.patchOffset,
        ⟨code.kind, .symbol b.target b.offset, code.kind.mayRelax relax⟩))
  | none =>
    match op with
    | .define name =>
      if f.symbols.any (·.1 == name) then f
      else { f with symbols := f.symbols ++ [(name, f.bytes.length)] }
    | _ => f

/-- The output of operations whose branches have the given code. -/
def run (codes : List BranchCode) (ops : List SectionOp) : Flat :=
  ops.foldl place ⟨[], [], [], codes⟩

/-- The symbol of a relocation, and what is added to it. -/
def reference : Expr → Option String × Int64
  | .symbol name addend => (some name, addend)
  | .constant value => (none, value)
  | .register _ => (none, 0)

/-- The entries of a relocation: itself, and the mark that the linker may shorten code. -/
def entries : Nat × Fixup → List Relocation
  | (offset, fixup) =>
    ⟨offset, fixup.kind, (reference fixup.target).1, (reference fixup.target).2⟩ ::
      (if fixup.relaxable then [⟨offset, .relax, none, 0⟩] else [])

/-- Bytes with the distance of one relocation filled in, if its symbol is defined. -/
def fill (f : Flat) (bytes : Array UInt8) : Nat × Fixup → Array UInt8
  | (offset, ⟨kind, .symbol name addend, _⟩) =>
    match f.symbols.lookup name with
    | none => bytes
    | some target =>
      Layout.fill bytes offset kind (Int64.ofNat target + addend - Int64.ofNat offset)
  | _ => bytes

/-- The bytes with the distances of all branches filled in. -/
def filled (f : Flat) : List UInt8 :=
  (f.fixups.foldl f.fill f.bytes.toArray).toList

end Flat

/-! ### The reference follows the pieces -/

/-- The code of each branch. -/
def Codes : List Branch → List BranchCode → Prop :=
  List.Forall₂ fun b code => b.bytes = .ok code ∧ code.bytes.length = b.length

/-- Items that were placed have code. -/
theorem PlacedFrom.exists_codes {s : Section} {offsets : Array Nat} {start : Nat}
    {items : List Item} {pieces : List Piece} (h : PlacedFrom s offsets start items pieces) :
    ∃ codes, Codes (items.filterMap Item.branch?) codes := by
  induction h with
  | nil => exact ⟨[], .nil⟩
  | @cons start item items piece pieces hplaced _ ih =>
    obtain ⟨codes, hcodes⟩ := ih
    cases item with
    | data bytes fixup => exact ⟨codes, hcodes⟩
    | branch b relax =>
      obtain ⟨code, hb, hr, -⟩ := hplaced
      exact ⟨code :: codes, .cons ⟨hb, Branch.length_bytes hr hb⟩ hcodes⟩

theorem Codes.uncons {item : Item} {items : List Item} {codes : List BranchCode}
    (h : Codes ((item :: items).filterMap Item.branch?) codes) :
    ∃ codes₁ codes₂, codes = codes₁ ++ codes₂ ∧ Codes item.branch?.toList codes₁ ∧
      Codes (items.filterMap Item.branch?) codes₂ := by
  cases item with
  | data bytes fixup => exact ⟨[], codes, rfl, .nil, h⟩
  | branch b relax =>
    cases h with
    | cons hcode hcodes => exact ⟨[_], _, rfl, .cons hcode .nil, hcodes⟩

namespace Flat

/-- The reference stands where a section stands: its symbols have the addresses that `address` gives
to the numbers of items, and its bytes end at the address of the end. -/
structure Agrees (address : Nat → Nat) (s : Section) (f : Flat) : Prop where
  symbols : f.symbols.Perm (s.symbols.toList.map fun (name, i) => (name, address i))
  length : address s.items.size = f.bytes.length

theorem Agrees.any_symbols {address : Nat → Nat} {s : Section} {f : Flat} (h : Agrees address s f)
    (name : String) : f.symbols.any (·.1 == name) = s.defines name := by
  rw [h.symbols.any_eq, List.any_map, Section.defines, Bool.eq_iff_iff, List.any_eq_true,
    Std.TreeMap.contains_iff_mem, Std.TreeMap.mem_iff_isSome_getElem?, Option.isSome_iff_exists]
  simp only [Function.comp_apply, beq_iff_eq]
  constructor
  · rintro ⟨⟨name', i⟩, hmem, rfl⟩
    exact ⟨i, Std.TreeMap.mem_toList_iff_getElem?_eq_some.1 hmem⟩
  · rintro ⟨i, hi⟩
    exact ⟨(name, i), Std.TreeMap.mem_toList_iff_getElem?_eq_some.2 hi, rfl⟩

/-- Defining a symbol keeps the two in step. -/
theorem Agrees.define {address : Nat → Nat} {s : Section} {f : Flat} (h : Agrees address s f)
    (name : String) : Agrees address (s.apply (.define name)) (f.place (.define name)) := by
  have hany := h.any_symbols name
  simp only [place, SectionOp.item?]
  cases hd : s.defines name with
  | true =>
    rw [Section.apply_define_of_defines hd, if_pos (hany.trans hd)]
    exact h
  | false =>
    rw [Section.apply_define_of_not_defines hd, if_neg (by rw [hany, hd]; decide)]
    have hnew : s.symbols.toList.filter (fun p => decide ¬(name == p.1) = true) =
        s.symbols.toList := by
      refine List.filter_eq_self.2 fun p hmem => decide_eq_true fun heq => ?_
      have hp := Std.TreeMap.mem_toList_iff_getElem?_eq_some.1 hmem
      rw [← beq_iff_eq.1 heq] at hp
      rw [Section.defines, Std.TreeMap.contains_eq_isSome_getElem?, hp] at hd
      cases hd
    have hperm := (Std.TreeMap.toList_insert_perm (t := s.symbols) (k := name)
      (v := s.items.size)).map fun (p : String × Nat) => (p.1, address p.2)
    rw [hnew, List.map_cons, h.length] at hperm
    refine ⟨?_, h.length⟩
    exact (List.perm_append_singleton _ _).trans ((h.symbols.cons _).trans hperm.symm)

/-- An item that an operation appends goes to the end of the reference as its piece. -/
theorem place_of_placed {s : Section} {offsets : Array Nat} {f : Flat} {op : SectionOp}
    {item : Item} {piece : Piece} {codes more : List BranchCode}
    (hop : op.item? = some item.appended) (hplaced : item.Placed s offsets f.bytes.length piece)
    (hcodes : Codes item.branch?.toList codes) (hf : f.codes = codes ++ more) :
    f.place op = { f with codes := more }.append piece.bytes piece.fixup := by
  cases item with
  | data bytes fixup =>
    obtain rfl : piece = _ := hplaced
    cases hcodes
    simp only [List.nil_append] at hf
    simp [place, hop, Item.appended, append, hf]
  | branch b relax =>
    obtain ⟨code, hb, -, rfl⟩ := hplaced
    cases hcodes with
    | @cons _ code' _ _ hcode hnil =>
      cases hnil
      obtain rfl : code = code' := by
        rw [hb] at hcode
        exact Except.ok.inj hcode.1
      simp [place, hop, hf, Item.appended, Branch.new]

/-- An operation that appends nothing changes the symbols of the reference at most. -/
theorem place_of_item?_eq_none {f : Flat} {op : SectionOp} (hop : op.item? = none) :
    (f.place op).bytes = f.bytes ∧ (f.place op).fixups = f.fixups ∧
      (f.place op).codes = f.codes := by
  simp only [place, hop]
  split
  · split <;> exact ⟨rfl, rfl, rfl⟩
  · exact ⟨rfl, rfl, rfl⟩

theorem Agrees.of_item?_eq_none {address : Nat → Nat} {s : Section} {f : Flat} {op : SectionOp}
    (h : Agrees address s f) (hop : op.item? = none) :
    Agrees address (s.apply op) (f.place op) := by
  cases op with
  | data bytes fixup => cases hop
  | branch insn kind target relax =>
    rw [Section.apply_branch, hop]
    simpa only [place, hop] using h
  | define name => exact h.define name

/-- The reference after operations, from any point on: the pieces of their items come last, and the
symbols stand where `address` has them. -/
theorem foldl_place {mid : Section} {offsets : Array Nat} {address : Nat → Nat}
    {ops : List SectionOp} {s : Section} {f : Flat} {items : List Item} {pieces : List Piece}
    {codes more : List BranchCode} (happ : items.map Item.appended = ops.filterMap SectionOp.item?)
    (hplaced : PlacedFrom mid offsets f.bytes.length items pieces)
    (hcodes : Codes (items.filterMap Item.branch?) codes)
    (hf : f.codes = codes ++ more) (h : Agrees address s f)
    (haddr : ∀ j ≤ items.length, address (s.items.size + j) = f.bytes.length + startOf items j) :
    (ops.foldl place f).bytes = f.bytes ++ pieces.flatMap Piece.bytes ∧
      (ops.foldl place f).fixups = f.fixups ++ pieces.filterMap Piece.fixup ∧
      (ops.foldl place f).codes = more ∧
      Agrees address (ops.foldl Section.apply s) (ops.foldl place f) := by
  induction ops generalizing s f items pieces codes with
  | nil =>
    obtain rfl : items = [] := by simpa using happ
    cases hplaced
    cases hcodes
    simpa using ⟨hf, h⟩
  | cons op ops ih =>
    rw [List.foldl_cons, List.foldl_cons]
    cases hop : op.item? with
    | none =>
      rw [List.filterMap_cons_none hop] at happ
      obtain ⟨hbytes, hfixups, hrest⟩ := place_of_item?_eq_none (f := f) hop
      have hsize : (s.apply op).items.size = s.items.size := by
        rw [Section.size_items_apply, hop]
        rfl
      have := ih happ (by rwa [hbytes]) hcodes (by rwa [hrest]) (h.of_item?_eq_none hop)
        (by rwa [hbytes, hsize])
      rwa [hbytes, hfixups] at this
    | some item₀ =>
      rw [List.filterMap_cons_some hop] at happ
      obtain ⟨item, items, rfl, rfl, happ'⟩ := List.map_eq_cons_iff.1 happ
      cases hplaced with
      | @cons _ _ _ piece pieces hpiece hpieces =>
        obtain ⟨codes₁, codes₂, rfl, hcodes₁, hcodes₂⟩ := hcodes.uncons
        rw [List.append_assoc] at hf
        have hlen := hpiece.length_bytes
        have hsize : (s.apply op).items.size = s.items.size + 1 := by
          rw [Section.size_items_apply, hop]
          rfl
        rw [place_of_placed hop hpiece hcodes₁ hf]
        have haddr' : ∀ j ≤ items.length, address ((s.apply op).items.size + j) =
            f.bytes.length + item.size + startOf items j := by
          intro j hj
          rw [hsize, Nat.add_assoc, Nat.add_comm 1 j, haddr (j + 1) (by simpa using hj),
            startOf_cons_succ, Nat.add_assoc]
        have hagrees : Agrees address (s.apply op)
            ({ f with codes := codes₂ ++ more }.append piece.bytes piece.fixup) := by
          refine ⟨?_, ?_⟩
          · rw [Section.symbols_apply_of_item? hop]
            exact h.symbols
          · simpa [append, hlen] using haddr' 0 (Nat.zero_le _)
        have := ih happ' (by simpa [append, hlen] using hpieces) hcodes₂ rfl hagrees
          (by simpa [append, hlen] using haddr')
        cases hfix : piece.fixup <;> simpa [append, hfix] using this

/-- Looking up a symbol in the list of addresses. -/
theorem lookup_of_perm {symbols : Std.TreeMap String Nat} {address : Nat → Nat}
    {pairs : List (String × Nat)}
    (h : pairs.Perm (symbols.toList.map fun (name, i) => (name, address i))) (name : String) :
    pairs.lookup name = symbols[name]?.map address := by
  cases hs : symbols[name]? with
  | none =>
    refine List.lookup_eq_none_iff.2 fun p hp => ?_
    obtain ⟨⟨name', i⟩, hmem, rfl⟩ := List.mem_map.1 (h.mem_iff.1 hp)
    have hi := Std.TreeMap.mem_toList_iff_getElem?_eq_some.1 hmem
    refine bne_iff_ne.2 fun heq => ?_
    rw [← show name = name' from heq, hs] at hi
    cases hi
  | some i =>
    have hmem : (name, address i) ∈ pairs := h.mem_iff.2
      (List.mem_map.2 ⟨(name, i), Std.TreeMap.mem_toList_iff_getElem?_eq_some.2 hs, rfl⟩)
    cases hl : pairs.lookup name with
    | none => simpa using List.lookup_eq_none_iff.1 hl _ hmem
    | some a =>
      obtain ⟨l₁, l₂, hsplit, -⟩ := List.lookup_eq_some_iff.1 hl
      have hmem' : (name, a) ∈ pairs := by simp [hsplit]
      obtain ⟨⟨name', i'⟩, hi', heq⟩ := List.mem_map.1 (h.mem_iff.1 hmem')
      obtain ⟨rfl, rfl⟩ := Prod.mk.inj heq
      rw [Std.TreeMap.mem_toList_iff_getElem?_eq_some.1 hi'] at hs
      rw [Option.some.inj hs]
      rfl

/-- A symbol of the reference is one of the section, at its address. -/
theorem Agrees.lookup_symbols {address : Nat → Nat} {s : Section} {f : Flat} (h : Agrees address s f)
    (name : String) : f.symbols.lookup name = s.symbols[name]?.map address :=
  lookup_of_perm h.symbols name

end Flat

/-! ### Assembly -/

/-- The entries of relocations are those of the reference. -/
theorem Layout.allEntries_eq_ok {fixups : List (Nat × Fixup)} {entries : List Relocation}
    (h : Layout.allEntries fixups = .ok entries) : entries = fixups.flatMap Flat.entries := by
  induction fixups generalizing entries with
  | nil =>
    cases h
    rfl
  | cons fixup fixups ih =>
    obtain ⟨offset, kind, target, relaxable⟩ := fixup
    simp only [allEntries] at h
    cases hr : Layout.allEntries fixups with
    | error d =>
      cases target <;> simp [hr, Layout.entries, bind, Except.bind] at h
    | ok more =>
      have hmore := ih hr
      cases target with
      | register name => simp [Layout.entries, bind, Except.bind] at h
      | symbol name addend =>
        simp only [hr, Layout.entries, bind, Except.bind, Except.ok.injEq] at h
        rw [← h, hmore, List.flatMap_cons]
        rfl
      | constant value =>
        simp only [hr, Layout.entries, bind, Except.bind, Except.ok.injEq] at h
        rw [← h, hmore, List.flatMap_cons]
        rfl

namespace Section.LaidOut

variable {s s' mid : Section} {l : Layout} {pieces : List Piece} {f : Flat}

/-- What the pieces make of a layout. -/
theorem eq_of_assembled (h : LaidOut s s' l mid pieces) :
    l.bytes = ((pieces.filterMap Piece.fixup).foldl (Layout.fillFixup (mid.address? mid.offsets))
      (pieces.flatMap Piece.bytes).toArray).toList ∧
      l.fixups = (pieces.filterMap Piece.fixup).flatMap Flat.entries ∧
      l.symbols = s.symbols.toList.filterMap fun (name, i) => mid.offsets[i]?.map (name, ·) := by
  have hasm := h.assembled
  unfold assemblePieces Layout.assemble at hasm
  cases he : Layout.allEntries (pieces.filterMap Piece.fixup) with
  | error d => simp [he, bind, Except.bind] at hasm
  | ok entries =>
    simp only [he, bind, Except.bind, Except.ok.injEq] at hasm
    rw [← hasm, ← h.symbols_mid, Layout.allEntries_eq_ok he]
    exact ⟨rfl, rfl, rfl⟩

/-- A symbol of the reference has the address that layout computes. -/
theorem address?_eq_lookup (h : LaidOut s s' l mid pieces) (hb : s.Bounded)
    (hf : Flat.Agrees (startOf s'.items.toList) s f) (name : String) :
    mid.address? mid.offsets name = f.symbols.lookup name := by
  rw [h.address?, hf.lookup_symbols]
  cases hi : s.symbols[name]? with
  | none => rfl
  | some i => exact if_pos (hb name i hi)

/-- Distances are filled in as in the reference. -/
theorem fillFixup_eq_fill (h : LaidOut s s' l mid pieces) (hb : s.Bounded)
    (hf : Flat.Agrees (startOf s'.items.toList) s f) :
    Layout.fillFixup (mid.address? mid.offsets) = f.fill := by
  funext bytes fixup
  obtain ⟨offset, kind, target, relaxable⟩ := fixup
  cases target with
  | symbol name addend =>
    simp only [Layout.fillFixup, Flat.fill, Layout.distance?, h.address?_eq_lookup hb hf]
    cases f.symbols.lookup name <;> rfl
  | constant value => rfl
  | register name => rfl

/-- The symbols of a layout, each at its address. -/
theorem symbols_eq (h : LaidOut s s' l mid pieces) (hb : s.Bounded) :
    l.symbols = s.symbols.toList.map fun (name, i) => (name, startOf s'.items.toList i) := by
  rw [h.eq_of_assembled.2.2, ← List.filterMap_eq_map]
  refine List.filterMap_congr fun p hp => ?_
  obtain ⟨name, i⟩ := p
  have hi := hb name i (Std.TreeMap.mem_toList_iff_getElem?_eq_some.1 hp)
  simp [h.getElem?_offsets hi]

/-- A symbol has the address of the item that it stands before. -/
theorem lookup_symbols (h : LaidOut s s' l mid pieces) (hb : s.Bounded) (name : String) :
    l.symbols.lookup name = s.symbols[name]?.map (startOf s'.items.toList) :=
  Flat.lookup_of_perm (by rw [h.symbols_eq hb]) name

theorem nodup_symbols (h : LaidOut s s' l mid pieces) (hb : s.Bounded) :
    (l.symbols.map Prod.fst).Nodup := by
  rw [h.symbols_eq hb, List.map_map]
  have hkeys : s.symbols.toList.map (Prod.fst ∘ fun (name, i) =>
      (name, startOf s'.items.toList i)) = s.symbols.keys :=
    Std.TreeMap.map_fst_toList_eq_keys
  rw [hkeys]
  refine List.Pairwise.imp (fun {a b} hab heq => hab ?_) Std.TreeMap.distinct_keys
  rw [heq]
  exact Std.ReflCmp.compare_self

end Section.LaidOut

/-- A layout of a section is the reference run on the code of its branches. -/
theorem Section.exists_flat (ops : List SectionOp) {l : Layout}
    (h : (Section.build ops).layout.2 = .ok l) :
    (Section.build ops).layout.1.items.toList.map Item.appended =
        ops.filterMap SectionOp.item? ∧
      ∃ codes, Codes (Section.build ops).layout.1.branches codes ∧
        (Flat.run codes ops).codes = [] ∧ l.bytes = (Flat.run codes ops).filled ∧
        l.fixups = (Flat.run codes ops).fixups.flatMap Flat.entries ∧
        l.symbols.Perm (Flat.run codes ops).symbols ∧ (l.symbols.map Prod.fst).Nodup := by
  obtain ⟨s', hs'⟩ : ∃ s', (Section.build ops).layout.1 = s' := ⟨_, rfl⟩
  obtain ⟨mid, pieces, hl⟩ := Section.laidOut_of_layout (Prod.ext hs' h)
  rw [hs']
  have happ : s'.items.toList.map Item.appended = ops.filterMap SectionOp.item? := by
    rw [hl.appended, Section.map_appended_build, Section.items_build]
  obtain ⟨codes, hcodes⟩ := hl.placed.exists_codes
  have hstart : Flat.Agrees (startOf s'.items.toList) Section.empty ⟨[], [], [], codes⟩ :=
    ⟨.refl _, by simp [Section.empty]⟩
  have hall : (⟨[], [], [], codes⟩ : Flat).codes = codes ++ [] := (List.append_nil codes).symm
  obtain ⟨hbytes, hfixups, hrest, hagrees⟩ := Flat.foldl_place happ hl.placed hcodes hall hstart
    (fun j _ => by simp [Section.empty])
  have hbound := Section.bounded_build ops
  have hsymbols : l.symbols.Perm (Flat.run codes ops).symbols := by
    rw [hl.symbols_eq hbound]
    exact hagrees.symbols.symm
  obtain ⟨hlbytes, hlfixups, -⟩ := hl.eq_of_assembled
  refine ⟨happ, codes, hcodes, hrest, ?_, ?_, hsymbols, hl.nodup_symbols hbound⟩
  · rw [hlbytes, hl.fillFixup_eq_fill hbound hagrees]
    simp only [Flat.run, Flat.filled, hbytes, hfixups, List.nil_append]
  · rw [hlfixups]
    simp only [Flat.run, hfixups, List.nil_append]

/-- **Layout refines a flat reference.** Every branch keeps what it was appended as, apart from its
length and its state; and the reference, run on the code of the final branches, gives the bytes
before any distance is filled in, the relocations in order, each with its mark, and every symbol with
its address. -/
theorem layout_refines_flat (ops : List SectionOp) {l : Layout}
    (h : (Stream.build ops).layout.2 = .ok l) :
    (Stream.build ops).layout.1.branches.branches.toList.map Branch.appended =
        (ops.filterMap SectionOp.item?).filterMap Item.branch? ∧
      ∃ codes, Codes (Stream.build ops).layout.1.branches.branches.toList codes ∧
        (Flat.run codes ops).codes = [] ∧ l.bytes = (Flat.run codes ops).filled ∧
        l.fixups = (Flat.run codes ops).fixups.flatMap Flat.entries ∧
        l.symbols.Perm (Flat.run codes ops).symbols ∧ (l.symbols.map Prod.fst).Nodup := by
  obtain ⟨hlayout, hstores⟩ := (Stream.Stores.build ops).layout
  rw [hlayout] at h
  obtain ⟨happended, codes, hcodes, hflat⟩ := Section.exists_flat ops h
  rw [hstores.branches]
  refine ⟨?_, codes, hcodes, hflat⟩
  rw [← happended, Item.filterMap_branch?_appended]
  rfl

/-- A branch back, a jump ahead, an address in two parts that are left to the linker, and labels at
both ends and between the parts. -/
def mixedOps : List SectionOp :=
  [.define "start", .data [0x13, 0, 0, 0] none, .branch 0xb50063 .branch (.symbol "start" 0) true,
    .branch 0xa001 .rvcJump (.symbol "end" 0) true,
    .data [0x17, 5, 0, 0] (some ⟨.pcrelHi20, .symbol "x" 4, true⟩), .define "low",
    .data [0x13, 5, 5, 0] (some ⟨.pcrelLo12I, .symbol "low" 0, false⟩), .define "end"]

/-- The layout of `mixedOps`: four and two bytes are enough for its branches. -/
def mixedLayout : Layout :=
  ⟨[0x13, 0, 0, 0, 0xe3, 0x0e, 0xb5, 0xfe, 0x29, 0xa0, 0x17, 5, 0, 0, 0x13, 5, 5, 0],
    [⟨4, .branch, some "start", 0⟩, ⟨8, .rvcJump, some "end", 0⟩, ⟨10, .pcrelHi20, some "x", 4⟩,
      ⟨10, .relax, none, 0⟩, ⟨14, .pcrelLo12I, some "low", 0⟩],
    [("end", 18), ("low", 14), ("start", 0)]⟩

theorem layout_mixedOps : (Stream.build mixedOps).layout.2 = .ok mixedLayout :=
  eq_ok_of_toOption (by decide +kernel)

theorem layout_refines_flat_mixedOps :
    (Stream.build mixedOps).layout.2 = .ok mixedLayout ∧
      ∃ codes, Codes (Stream.build mixedOps).layout.1.branches.branches.toList codes ∧
        mixedLayout.bytes = (Flat.run codes mixedOps).filled ∧
        mixedLayout.symbols.Perm (Flat.run codes mixedOps).symbols := by
  obtain ⟨-, codes, hcodes, -, hbytes, -, hsymbols, -⟩ :=
    layout_refines_flat mixedOps layout_mixedOps
  exact ⟨layout_mixedOps, codes, hcodes, hbytes, hsymbols⟩

end RiscvAssembler
