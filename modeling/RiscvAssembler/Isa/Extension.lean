/-!
The extensions of the instruction set: single letters in their canonical order, and longer names
in classes told apart by their first letter.
-/

namespace RiscvAssembler

/-- Version of an extension. -/
structure Version where
  major : UInt32
  minor : UInt32
deriving DecidableEq, Repr

/-- Classes of extension names. -/
inductive ExtensionClass where
  /-- A single letter. -/
  | standard
  /-- Names that start with `s`. -/
  | supervisor
  /-- Names that start with `z`. -/
  | z
  /-- Vendor names, which start with `x`. -/
  | nonStandard
deriving DecidableEq, Repr

namespace Extension

/-- The single letters after the base, in the order an ISA string lists them. -/
def letterOrder : List Char :=
  "mafdqlcbjtpvn".toList

/-- The letters that `g` adds to the base `i`. -/
def generalLetters : List Char :=
  "mafd".toList

/-- The known names of class `s`. -/
def supervisorNames : List String :=
  ["sscofpmf", "svinval", "svnapot", "svpbmt"]

/-- The known names of class `z`. -/
def zNames : List String :=
  ["zba", "zbb", "zbc", "zbs", "zicsr", "zifencei", "zihintpause"]

/-- Place of a letter in the canonical order. -/
def rank? (letter : Char) : Option Nat :=
  letterOrder.idxOf? letter

/-- The version of an extension that is written without one. -/
def standardVersion? (name : String) : Option Version :=
  if name = "e" then some ⟨1, 9⟩
  else if name ∈ ["i", "m", "a", "f", "d", "q", "c", "zicsr", "zifencei", "zihintpause"] then
    some ⟨2, 0⟩
  else if name ∈ ["zba", "zbb", "zbc", "zbs"] then some ⟨1, 0⟩
  else none

end Extension

namespace ExtensionClass

/-- The classes of longer names, in the order an ISA string lists them. -/
def multiLetter : List ExtensionClass :=
  [.supervisor, .z, .nonStandard]

/-- The letter that the names of a class of longer names start with. -/
def letter? : ExtensionClass → Option Char
  | .standard => none
  | .supervisor => some 's'
  | .z => some 'z'
  | .nonStandard => some 'x'

/-- Whether a letter opens the names of some class of longer names. -/
def isClassLetter (c : Char) : Bool :=
  c == 's' || c == 'z' || c == 'x'

/-- The class of a name. A letter alone is always a single-letter extension. -/
def ofName (name : String) : ExtensionClass :=
  match name.toList with
  | 's' :: _ :: _ => .supervisor
  | 'z' :: _ :: _ => .z
  | 'x' :: _ :: _ => .nonStandard
  | _ => .standard

/-- What diagnostics call the class. -/
def description : ExtensionClass → String
  | .standard => "standard"
  | .supervisor => "supervisor"
  | .z => "standard non-single-letter"
  | .nonStandard => "non-standard"

/-- Whether the class has a name: vendors choose theirs freely, the other names are listed. -/
def accepts (cls : ExtensionClass) (name : String) : Bool :=
  match cls with
  | .standard =>
    match name.toList with
    | [c] => c == 'i' || c == 'e' || (Extension.rank? c).isSome
    | _ => false
  | .supervisor => Extension.supervisorNames.contains name
  | .z => Extension.zNames.contains name
  | .nonStandard =>
    match name.toList with
    | 'x' :: _ :: _ => true
    | _ => false

end ExtensionClass

end RiscvAssembler
