import RiscvAssembler.Branch.Store
import RiscvAssembler.Section.Layout

/-!
A section as it is stored. Data that is appended in a row is merged into one fragment, which keeps
the relocations with their offsets in it. A branch is a fragment of its own and goes by its number
in a collection of branches. Addresses are not known before layout, so a place is a fragment and an
offset in it: it stays right while the branches before it become shorter.
-/

namespace RiscvAssembler

/-- A place in a section whose layout is not known. -/
structure Position where
  fragment : Nat
  /-- Bytes of the fragment before the place. -/
  offset : Nat
deriving DecidableEq, Repr

/-- The address of a place, from those of the fragments. -/
def Position.address? (offsets : Array Nat) (p : Position) : Option Nat :=
  offsets[p.fragment]?.map (· + p.offset)

/-- A stored piece of a section. -/
inductive Fragment where
  /-- Bytes, with relocations at offsets in them. -/
  | fixed (bytes : Array UInt8) (fixups : Array (Nat × Fixup))
  /-- A branch by its number, and whether the linker may shorten code. -/
  | relaxed (number : Nat) (relax : Bool)
deriving DecidableEq, Repr

namespace Fragment

/-- The current size in bytes. -/
def size (branches : BranchStore) : Fragment → Nat
  | .fixed bytes _ => bytes.size
  | .relaxed number _ => branches.estimate number

/-- More bytes at the end of fixed ones, perhaps with a relocation at an offset. -/
def extend (offset : Nat) (data : List UInt8) (fixup : Option Fixup) : Fragment → Fragment
  | .fixed bytes fixups =>
    .fixed (bytes ++ data.toArray) (fixups ++ (fixup.map (offset, ·)).toArray)
  | .relaxed number relax => .relaxed number relax

end Fragment

/-- What layout leaves as it is: the fragments, and the places of symbols in them. -/
structure Outline where
  fragments : Array Fragment
  symbols : Std.TreeMap String Position

/-- The contents of a section, as stored. -/
structure Stream extends Outline where
  branches : BranchStore

/-! ### Growth -/

namespace Stream

/-- A section without contents. -/
def empty : Stream :=
  ⟨⟨#[], ∅⟩, .empty⟩

/-- Whether nothing was appended. -/
def isEmpty (st : Stream) : Bool :=
  st.fragments.isEmpty

/-- The place at the end: still in the last fragment if that is fixed. -/
def position (st : Stream) : Position :=
  match st.fragments.back? with
  | some (.fixed bytes _) => ⟨st.fragments.size - 1, bytes.size⟩
  | _ => ⟨st.fragments.size, 0⟩

/-- Appends bytes, perhaps with a relocation at the first, and answers with their place. -/
def appendData (st : Stream) (data : List UInt8) (fixup : Option Fixup) : Position × Stream :=
  let place := st.position
  let fragments :=
    if place.fragment = st.fragments.size then st.fragments.push (.fixed #[] #[]) else st.fragments
  let last := fragments.size - 1
  (place, { st with fragments := fragments.modify last (.extend place.offset data fixup) })

/-- Appends a branch that was added to the collection, and answers with its place. -/
def addBranch (st : Stream) (number : Nat) (branches : BranchStore) (relax : Bool) :
    Position × Stream :=
  (⟨st.fragments.size, 0⟩,
    { st with fragments := st.fragments.push (.relaxed number relax), branches := branches })

/-- Appends a branch, and answers with its number and its place. Its target has to be a symbol, and
its relocation that of a branch. -/
def appendBranch (st : Stream) (insn : Word) (kind : RelocType) (target : Expr) (relax : Bool) :
    Except Error (Nat × Position × Stream) :=
  match target with
  | .symbol name addend =>
    match st.branches.create insn kind name addend with
    | .error d => .error (.defect d)
    | .ok (number, branches) => .ok (number, st.addBranch number branches relax)
  | _ => .error (.impossible (.branchTarget target))

/-- Whether a symbol is defined. -/
def defines (st : Stream) (name : String) : Bool :=
  st.symbols.contains name

/-- Defines a symbol at the end, and answers with its place. -/
def define (st : Stream) (name : String) : Except Error (Position × Stream) :=
  if st.defines name then .error (.duplicateSymbol name)
  else .ok (st.position, { st with symbols := st.symbols.insert name st.position })

/-- Appends an item, and answers with its place. -/
def append (st : Stream) : Item → Position × Stream
  | .data bytes fixup => st.appendData bytes fixup
  | .branch b relax => st.addBranch st.branches.branches.size (st.branches.push b) relax

/-- Items as they are stored. -/
def ofItems (items : List Item) : Stream :=
  items.foldl (fun st item => (st.append item).2) empty

end Stream

namespace Section

/-- The place at the end. -/
def position (s : Section) : Position :=
  (Stream.ofItems s.items.toList).position

/-- The place of an item. -/
def positionOf? (s : Section) (i : Nat) : Option Position :=
  s.items[i]?.map fun item => ((Stream.ofItems (s.items.toList.take i)).append item).1

/-- The number of branches before an item. -/
def branchesBefore (s : Section) (i : Nat) : Nat :=
  (Stream.ofItems (s.items.toList.take i)).branches.branches.size

end Section

/-! ### Layout -/

/-- Bytes so far, and the relocations in them with their addresses. -/
structure Output where
  bytes : Array UInt8
  fixups : Array (Nat × Fixup)

namespace Fragment

/-- Tightens the branch of a fragment at an address, and answers whether this or an earlier length
changed. -/
def tighten (address? : String → Option Nat) (changed : Bool) : Fragment × Nat → BranchStoreM Bool
  | (.fixed .., _) => return changed
  | (.relaxed number _, start) => do
    let b ← BranchStoreM.find number
    let length ← BranchStoreM.tighten number (Layout.distance? address? b.target b.offset start)
    return changed || length != b.length

/-- Appends the bytes of a fragment at an address, and its relocations. -/
def emit (address? : String → Option Nat) (out : Output) : Fragment × Nat → BranchStoreM Output
  | (.fixed bytes fixups, start) =>
    return ⟨out.bytes ++ bytes, out.fixups ++ fixups.map fun (offset, f) => (start + offset, f)⟩
  | (.relaxed number relax, start) => do
    let b ← BranchStoreM.find number
    let code ← BranchStoreM.emit number (Layout.distance? address? b.target b.offset start)
    let fixup : Fixup := ⟨code.kind, .symbol b.target b.offset, code.kind.mayRelax relax⟩
    return ⟨out.bytes ++ code.bytes.toArray, out.fixups.push (start + code.patchOffset, fixup)⟩

end Fragment

namespace Outline

/-- The address of each fragment, and of the end. -/
def offsets (o : Outline) (branches : BranchStore) : Array Nat :=
  (o.fragments.toList.scanl (fun start fragment => start + fragment.size branches) 0).toArray

/-- The fragments with their addresses. -/
def located (o : Outline) (offsets : Array Nat) : List (Fragment × Nat) :=
  o.fragments.toList.zip offsets.toList

/-- The address of a symbol. -/
def address? (o : Outline) (offsets : Array Nat) (name : String) : Option Nat :=
  o.symbols[name]?.bind (·.address? offsets)

/-- Tightens all branches until no length changes, in at most `passes` passes, and answers with the
addresses of the fragments then. -/
def relax (o : Outline) : (passes : Nat) → BranchStoreM (Option (Array Nat))
  | 0 => return none
  | n + 1 => do
    let offsets := o.offsets (← get)
    if ← (o.located offsets).foldlM (Fragment.tighten (o.address? offsets)) false then o.relax n
    else return some offsets

/-- Emits all fragments and assembles the final form. -/
def emit (o : Outline) (offsets : Array Nat) : BranchStoreM Layout := do
  let out ← (o.located offsets).foldlM (Fragment.emit (o.address? offsets)) ⟨#[], #[]⟩
  let symbols := o.symbols.toList.filterMap fun (name, p) => (p.address? offsets).map (name, ·)
  match Layout.assemble (o.address? offsets) symbols out.bytes out.fixups.toList with
  | .error d => throw d
  | .ok l => return l

/-- Settles the lengths and emits, unless the lengths do not settle. -/
def layout (o : Outline) : BranchStoreM (Option Layout) := do
  match ← o.relax Section.maxPasses with
  | none => return none
  | some offsets => return some (← o.emit offsets)

end Outline

/-- Lays a section out. The collection keeps the lengths chosen, also when layout fails. -/
def Stream.layout (st : Stream) : Stream × Except Error Layout :=
  match st.toOutline.layout st.branches with
  | .ok (some l) branches => ({ st with branches := branches }, .ok l)
  | .ok none branches =>
    ({ st with branches := branches }, .error (.relaxationLimit Section.maxPasses))
  | .error d branches => ({ st with branches := branches }, .error (.defect d))

end RiscvAssembler
