import Std.Data.TreeMap
import RiscvAssembler.Branch.Basic

/-!
The contents of a section while it grows: items in the order they were appended, and for each symbol
how many items stand before it.
-/

namespace RiscvAssembler

/-- A relocation against an expression. -/
structure Fixup where
  kind : RelocType
  target : Expr
  /-- Whether the linker may shorten the code there. -/
  relaxable : Bool
deriving DecidableEq, Repr

/-- A piece of a section. -/
inductive Item where
  /-- Bytes, perhaps with a relocation at the first. -/
  | data (bytes : List UInt8) (fixup : Option Fixup)
  /-- A branch, and whether the linker may shorten code. -/
  | branch (b : Branch) (relax : Bool)
deriving DecidableEq, Repr

namespace Item

/-- The branch of an item. -/
def branch? : Item → Option Branch
  | .data .. => none
  | .branch b _ => some b

/-- The current size in bytes. -/
def size : Item → Nat
  | .data bytes _ => bytes.length
  | .branch b _ => b.length

end Item

/-- The contents of a section. -/
structure Section where
  items : Array Item
  /-- The number of items before each symbol. -/
  symbols : Std.TreeMap String Nat

namespace Section

/-- A section without contents. -/
def empty : Section :=
  ⟨#[], ∅⟩

/-- Whether nothing was appended. -/
def isEmpty (s : Section) : Bool :=
  s.items.isEmpty

/-- The branches, in order. -/
def branches (s : Section) : List Branch :=
  s.items.toList.filterMap Item.branch?

/-- The section with one more item. -/
def push (s : Section) (item : Item) : Section :=
  { s with items := s.items.push item }

/-- Appends bytes, perhaps with a relocation at the first. -/
def appendData (s : Section) (bytes : List UInt8) (fixup : Option Fixup) : Section :=
  s.push (.data bytes fixup)

/-- Appends a branch. Its target has to be a symbol, and its relocation that of a branch. -/
def appendBranch (s : Section) (insn : Word) (kind : RelocType) (target : Expr) (relax : Bool) :
    Except Error Section :=
  match target, BranchKind.ofReloc? kind with
  | .symbol name addend, some k => .ok (s.push (.branch (.new k insn name addend) relax))
  | .symbol .., none => .error (.impossible (.notABranch kind))
  | _, _ => .error (.impossible (.branchTarget target))

/-- Whether a symbol is defined. -/
def defines (s : Section) (name : String) : Bool :=
  s.symbols.contains name

/-- Defines a symbol at the end. -/
def define (s : Section) (name : String) : Except Error Section :=
  if s.defines name then .error (.duplicateSymbol name)
  else .ok { s with symbols := s.symbols.insert name s.items.size }

end Section

end RiscvAssembler
