import RiscvAssembler.Error

/-!
Settings of a session: the configuration it starts with, and the options that directives change.
-/

namespace RiscvAssembler

/-- Options that directives switch, save and restore. -/
structure Options where
  /-- Whether compressed instructions are on. -/
  rvc : Bool
  /-- Whether code is position-independent. -/
  pic : Bool
  /-- Whether the linker may shorten code. -/
  relax : Bool
  /-- Whether the instruction set is recorded as an attribute. -/
  recordsArch : Bool
deriving DecidableEq, Repr

/-- What an option directive asks for. -/
inductive OptionCommand where
  | rvc (on : Bool)
  | pic (on : Bool)
  | relax (on : Bool)
  /-- Saves all options. -/
  | push
  /-- Restores the options saved last. -/
  | pop
deriving DecidableEq, Repr

/-- The command of a name. -/
def OptionCommand.ofName? (name : String) : Option OptionCommand :=
  [("rvc", rvc true), ("norvc", rvc false), ("pic", pic true), ("nopic", pic false),
    ("relax", relax true), ("norelax", relax false), ("push", push), ("pop", pop)].lookup name

/-- What a session starts with. -/
structure Config where
  /-- The ISA string. -/
  arch : List Char
  pic : Bool
  relax : Bool
  recordsArch : Bool
  /-- Register width of the calling convention, if given. -/
  abiXlen : Option Xlen
  /-- How floating-point arguments are passed, if given. -/
  floatAbi : Option FloatAbi
  /-- Versions of subsets that are written without one, before the usual ones. -/
  versions : List (String × Version)
deriving DecidableEq, Repr

namespace Config

/-- The usual configuration for an ISA string. -/
def ofArch (arch : List Char) : Config :=
  { arch := arch, pic := false, relax := true, recordsArch := false, abiXlen := none,
    floatAbi := none, versions := [] }

/-- The version of a subset that is written without one. -/
def versionOf (c : Config) (name : String) : Option Version :=
  c.versions.lookup name <|> Extension.standardVersion? name

/-- The options at the start, before the instruction set is known. -/
def startOptions (c : Config) : Options :=
  { rvc := false, pic := c.pic, relax := c.relax, recordsArch := c.recordsArch }

/-- Checks that the calling convention has the register width of the instruction set. -/
def checkAbi (c : Config) (isa : Xlen) : Except Error Unit :=
  match c.abiXlen with
  | none => .ok ()
  | some abi =>
    if isa.bits < abi.bits then .error (.directive (.malformed (.abiTooWide abi isa)))
    else if abi.bits < isa.bits then .error (.directive (.malformed (.abiTooNarrow abi isa)))
    else .ok ()

end Config

end RiscvAssembler
