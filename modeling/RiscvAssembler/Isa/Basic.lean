import RiscvAssembler.Isa.Extension
import RiscvAssembler.Text.Numeral

/-!
An instruction set: the width of its integer registers and its list of versioned subsets, with the
canonical text of both.
-/

namespace RiscvAssembler

/-- Width of the integer registers. -/
inductive Xlen where
  | rv32
  | rv64
deriving DecidableEq, Repr

namespace Xlen

/-- Width in bits. -/
def bits : Xlen → Nat
  | .rv32 => 32
  | .rv64 => 64

/-- Width in bytes. -/
def bytes (x : Xlen) : Nat :=
  x.bits / 8

/-- The text an ISA string opens with. -/
def text : Xlen → List Char
  | .rv32 => "rv32".toList
  | .rv64 => "rv64".toList

end Xlen

/-- How floating-point arguments are passed. -/
inductive FloatAbi where
  | soft
  | single
  | double
  | quad
deriving DecidableEq, Repr

/-- A subset of the instruction set, by name and version. -/
structure Subset where
  name : String
  version : Version
deriving DecidableEq, Repr

/-- The canonical text of a subset, such as `m2p0`. -/
def Subset.text (s : Subset) : List Char :=
  s.name.toList ++ Text.decimal s.version.major.toNat ++
    'p' :: Text.decimal s.version.minor.toNat

/-- An instruction set. -/
structure Isa where
  xlen : Xlen
  subsets : List Subset
deriving DecidableEq, Repr

namespace Isa

/-- The subset of a given name. -/
def find? (isa : Isa) (name : String) : Option Subset :=
  isa.subsets.find? (·.name == name)

/-- Whether a subset of a given name is present. -/
def has (isa : Isa) (name : String) : Bool :=
  (isa.find? name).isSome

/-- Whether the base with sixteen registers is in use. -/
def isReduced (isa : Isa) : Bool :=
  isa.has "e"

/-- The calling convention that the subsets suggest. Subset `f` alone suggests none. -/
def floatAbi (isa : Isa) : FloatAbi :=
  if isa.has "q" then .quad
  else if isa.has "d" then .double
  else .soft

/-- The canonical ISA string, such as `rv64i2p0_m2p0_c2p0`. -/
def canonical (isa : Isa) : List Char :=
  isa.xlen.text ++ ['_'].intercalate (isa.subsets.map Subset.text)

/-- The canonical ISA string as a `String`. -/
def canonicalText (isa : Isa) : String :=
  String.ofList isa.canonical

end Isa

end RiscvAssembler
