import RiscvAssembler.Reloc.Value
import RiscvAssembler.Section.Basic

/-!
Layout of a section. Every branch first has its longest form; each pass then tightens all branches
for the distances that the current lengths give, until no length changes. The bytes of the items
follow each other, every relocation is listed at its address, and a branch whose target stands in
the section also gets its distance filled in.
-/

namespace RiscvAssembler

/-- A relocation at its address. -/
structure Relocation where
  offset : Nat
  kind : RelocType
  /-- The symbol; none for a constant and for a mark that the linker may shorten code. -/
  symbol : Option String
  addend : Int64
deriving DecidableEq, Repr

/-- The final form of a section. -/
structure Layout where
  bytes : List UInt8
  fixups : List Relocation
  /-- Every symbol with its address, by name. -/
  symbols : List (String × Nat)
deriving DecidableEq, Repr

/-! ### Addresses -/

/-- The distance from an address to a symbol plus `addend`, if the symbol has an address. -/
def Layout.distance? (address? : String → Option Nat) (name : String) (addend : Int64)
    (start : Nat) : Option Int64 :=
  (address? name).map fun target => Int64.ofNat target + addend - Int64.ofNat start

namespace Section

/-- The address of each item, and of the end. -/
def offsets (s : Section) : Array Nat :=
  (s.items.toList.scanl (fun start item => start + item.size) 0).toArray

/-- The address of a symbol. -/
def address? (s : Section) (offsets : Array Nat) (name : String) : Option Nat :=
  match s.symbols[name]? with
  | none => none
  | some i => offsets[i]?

/-- The distance from an address to a symbol plus `addend`, if the symbol is in the section. -/
def distance? (s : Section) (offsets : Array Nat) (name : String) (addend : Int64) (start : Nat) :
    Option Int64 :=
  Layout.distance? (s.address? offsets) name addend start

/-! ### Lengths of branches -/

/-- An item with the length of its branch chosen anew. -/
def tightenItem (s : Section) (offsets : Array Nat) (start : Nat) : Item → Item
  | .data bytes fixup => .data bytes fixup
  | .branch b relax =>
    .branch (b.tighten (s.distance? offsets b.target b.offset start)) relax

/-- All branches tightened for the current lengths. -/
def tighten (s : Section) : Section :=
  let offsets := s.offsets
  { s with items := s.items.zipWith (fun item start => s.tightenItem offsets start item) offsets }

/-- The sizes of the items. -/
def sizes (s : Section) : List Nat :=
  s.items.toList.map Item.size

/-- Tightens until no length changes, in at most `passes` passes, and tells whether it did so. -/
def relax : (passes : Nat) → Section → Section × Bool
  | 0, s => (s, false)
  | n + 1, s =>
    let next := s.tighten
    if next.sizes = s.sizes then (next, true) else relax n next

/-- The most passes that layout makes. -/
def maxPasses : Nat := 100

end Section

/-! ### Bytes -/

/-- The bytes of an item, and its relocation at its address. -/
structure Piece where
  bytes : List UInt8
  fixup : Option (Nat × Fixup)
deriving DecidableEq, Repr

namespace Section

/-- The bytes of an item at an address. A branch is emitted from then on. -/
def emitItem (s : Section) (offsets : Array Nat) (start : Nat) :
    Item → Except Defect (Item × Piece)
  | .data bytes fixup => .ok (.data bytes fixup, ⟨bytes, fixup.map (start, ·)⟩)
  | .branch b relax => do
    let (b, out) ← b.emit (s.distance? offsets b.target b.offset start)
    let fixup : Fixup := ⟨out.kind, .symbol b.target b.offset, out.kind.mayRelax relax⟩
    .ok (.branch b relax, ⟨out.bytes, some (start + out.patchOffset, fixup)⟩)

/-- The bytes of items from an address on. At a defect, the items before it stay emitted. -/
def emitItems (s : Section) (offsets : Array Nat) :
    (start : Nat) → List Item → List Item × Except Defect (List Piece)
  | _, [] => ([], .ok [])
  | start, item :: items =>
    match s.emitItem offsets start item with
    | .error d => (item :: items, .error d)
    | .ok (item', piece) =>
      let (items', outcome) := s.emitItems offsets (start + item.size) items
      (item' :: items', outcome.map (piece :: ·))

end Section

/-! ### Relocations -/

namespace Layout

/-- The bytes of a field added to those at `offset`, if all of them are there. -/
def addField (bytes : Array UInt8) (offset : Nat) (field : List UInt8) : Array UInt8 :=
  if offset + field.length ≤ bytes.size then
    field.zipIdx.foldl (fun bs (b, i) => bs.modify (offset + i) (· ||| b)) bytes
  else bytes

/-- The distance of a branch filled in at `offset`, if its field can hold it. -/
def fill (bytes : Array UInt8) (offset : Nat) (kind : RelocType) (distance : Int64) :
    Array UInt8 :=
  match kind.branchBits? distance with
  | none => bytes
  | some field => addField bytes offset (field.toBytes kind.info.size)

/-- The entries of a relocation at its address. -/
def entries (offset : Nat) (fixup : Fixup) : Except Defect (List Relocation) :=
  let mark : List Relocation := if fixup.relaxable then [⟨offset, .relax, none, 0⟩] else []
  match fixup.target with
  | .symbol name addend => .ok (⟨offset, fixup.kind, some name, addend⟩ :: mark)
  | .constant value => .ok (⟨offset, fixup.kind, none, value⟩ :: mark)
  | .register name => .error (.impossible (.registerTarget name))

/-- The entries of relocations, in order. -/
def allEntries : List (Nat × Fixup) → Except Defect (List Relocation)
  | [] => .ok []
  | (offset, fixup) :: rest => do
    let here ← entries offset fixup
    let more ← allEntries rest
    .ok (here ++ more)

/-- The distance of a relocation filled in, if its target has an address. -/
def fillFixup (address? : String → Option Nat) (bytes : Array UInt8) : Nat × Fixup → Array UInt8
  | (offset, ⟨kind, .symbol name addend, _⟩) =>
    match distance? address? name addend offset with
    | none => bytes
    | some distance => fill bytes offset kind distance
  | _ => bytes

/-- The final form of a section from its bytes, its relocations and the addresses of its symbols. -/
def assemble (address? : String → Option Nat) (symbols : List (String × Nat))
    (bytes : Array UInt8) (fixups : List (Nat × Fixup)) : Except Defect Layout := do
  let entries ← allEntries fixups
  .ok { bytes := (fixups.foldl (fillFixup address?) bytes).toList
        fixups := entries
        symbols := symbols }

end Layout

namespace Section

/-- The final form of a section from the bytes of its items. -/
def assemblePieces (s : Section) (offsets : Array Nat) (pieces : List Piece) :
    Except Defect Layout :=
  Layout.assemble (s.address? offsets)
    (s.symbols.toList.filterMap fun (name, i) => offsets[i]?.map (name, ·))
    (pieces.flatMap Piece.bytes).toArray (pieces.filterMap Piece.fixup)

/-- Lays a section out. The section keeps the lengths chosen, also when layout fails. -/
def layout (s : Section) : Section × Except Error Layout :=
  match s.relax maxPasses with
  | (s, false) => (s, .error (.relaxationLimit maxPasses))
  | (s, true) =>
    let offsets := s.offsets
    let (items, outcome) := s.emitItems offsets 0 s.items.toList
    ({ s with items := items.toArray },
      match outcome with
      | .error d => .error (.defect d)
      | .ok pieces => (s.assemblePieces offsets pieces).mapError .defect)

end Section

end RiscvAssembler
