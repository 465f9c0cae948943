import RiscvAssembler.Section.Layout
import RiscvAssembler.Session.Instruction
import RiscvAssembler.Session.Statement

/-!
Assembly of source text: single statements, blocks whose errors are collected, and whole sources
that stop at the first error.
-/

namespace RiscvAssembler

namespace Session

/-! ### Statements -/

/-- Applies an attribute directive. -/
def setAttribute (arguments : List Char) : AssemblerM Unit :=
  update fun s =>
    match Attribute.read arguments with
    | .error m => .error (.directive (.malformed m))
    | .ok .ignored => .ok s
    | .ok (.arch text) => s.declareArch text

/-- Assembles a directive or instruction. -/
def statement : Statement → AssemblerM Unit
  | .nothing => return
  | .option name => update (·.option name)
  | .fields text => do
    let _ ← fieldInstruction text
  | .setAttribute arguments => setAttribute arguments
  | .unknownDirective name => throw (.directive (.unknown name))
  | .instruction mnemonic operands => do
    let _ ← instruction mnemonic operands

/-- Assembles a line: its labels, then its statement. -/
def line (text : List Char) : AssemblerM Unit := do
  let l := Line.read text
  l.labels.forM addLabel
  statement l.statement

/-! ### Blocks -/

/-- What is said about a block. -/
structure Report where
  diagnostics : List Diagnostic
  /-- The error that ended the block, if one did. -/
  fatal : Option Error
deriving DecidableEq, Repr

/-- The number of diagnostics that are errors. -/
def Report.numErrors (r : Report) : Nat :=
  (r.diagnostics.filter (·.severity = .error)).length

/-- Assembles statement after statement. Errors are reported, and only a fatal one ends it. -/
def statements : Session → List (List Char) → Session × Report
  | s, [] => (s, ⟨[], none⟩)
  | s, text :: rest =>
    match line text s with
    | .ok _ s => s.statements rest
    | .error e s =>
      if e.endsSession then (s, ⟨[], some e⟩)
      else
        let (s, report) := s.statements rest
        (s, { report with
          diagnostics := .ofError e (String.ofList text) :: report.diagnostics })

/-- Assembles a block of source. -/
def block (s : Session) (text : List Char) : Session × Report :=
  s.statements (Statement.ofBlock text)

/-! ### Results -/

/-- Lays the section out. Every reference to a later numeric label has to have found one. -/
def finish (s : Session) : Except Error Layout :=
  match s.labels.unresolved? with
  | some n => .error (.undefinedLocalLabel (Text.decimalText n ++ "f"))
  | none => s.contents.layout.2

/-- Assembles statement after statement, up to the first error. Warnings are passed over. -/
def allStatements : Session → List (List Char) → Except Error Session
  | s, [] => .ok s
  | s, text :: rest =>
    match line text s with
    | .ok _ s => s.allStatements rest
    | .error e s => if e.severity = .error then .error e else s.allStatements rest

end Session

/-- Assembles a source for a configuration. -/
def assembleSource (catalogs : Catalogs) (config : Config) (source : List Char) :
    Except Error Layout := do
  let s ← Session.new catalogs config
  let s ← s.allStatements (Statement.ofBlock source)
  s.finish

/-- The bytes of a source for an ISA string. -/
def assemble (catalogs : Catalogs) (source arch : List Char) : Except Error (List UInt8) :=
  (assembleSource catalogs (.ofArch arch) source).map Layout.bytes

end RiscvAssembler
