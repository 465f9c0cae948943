import RiscvAssembler.Pseudo.Expansion
import RiscvAssembler.Section.Stream
import RiscvAssembler.Session.Basic

/-!
Instructions of a session: encoded, expanded if need be, and appended to the section.
-/

namespace RiscvAssembler

/-- An instruction in the section. -/
structure Placed where
  mnemonic : String
  /-- The word as encoded, with no distance in it. -/
  bits : Word
  /-- Length in bytes as encoded; layout may choose another one for a branch. -/
  length : Nat
  /-- The number of its item. -/
  item : Nat
  fixup : Option Fixup
  /-- Whether layout chooses its length. -/
  isBranch : Bool
deriving DecidableEq, Repr

namespace Placed

/-- The bytes as encoded. -/
def toBytes (p : Placed) : List UInt8 :=
  p.bits.toBytes p.length

/-- Where the instruction stands in a section. -/
def position? (p : Placed) (contents : Section) : Option Position :=
  contents.positionOf? p.item

/-- The number of the instruction among the branches of a section, if layout chooses its length. -/
def branch? (p : Placed) (contents : Section) : Option Nat :=
  if p.isBranch then some (contents.branchesBefore p.item) else none

end Placed

namespace Session

/-! ### Symbols -/

/-- Defines a symbol at the end of the section. -/
def addSymbol (name : String) : AssemblerM Unit :=
  update fun s => (s.contents.define name).map fun contents => { s with contents := contents }

/-- Defines a label at the end of the section. -/
def addLabel : Label → AssemblerM Unit
  | .named name => addSymbol name
  | .numbered n => do
    let name ← modifyGet fun s =>
      let (name, labels) := s.labels.define n
      (name, { s with labels := labels })
    addSymbol name

/-- Replaces numeric references in an operand text. -/
def resolveReferences (operands : List Char) : AssemblerM (List Char) := do
  let outcome ← modifyGet fun s =>
    let (labels, outcome) := s.labels.resolve operands
    (outcome, { s with labels := labels })
  match outcome with
  | .ok text => return text
  | .error e => throw e

/-- An encoded instruction with a dot in it replaced by a symbol for its place. -/
def nameDot (e : Encoded) : AssemblerM Encoded := do
  match e.imm with
  | some (.symbol name addend) =>
    if name = "." then
      let dot ← modifyGet fun s =>
        let (dot, labels) := s.labels.freshDot
        (dot, { s with labels := labels })
      addSymbol dot
      return { e with imm := some (.symbol dot addend) }
    else return e
  | _ => return e

/-! ### Placing -/

/-- Appends an encoded instruction: a branch to a symbol with its length left open, anything else
as bytes. -/
def place (e : Encoded) : AssemblerM Placed := do
  let item := (← get).contents.items.size
  let relax := (← get).options.relax
  let placed : Placed :=
    { mnemonic := e.template.mnemonic, bits := e.bits, length := e.length, item := item,
      fixup := none, isBranch := false }
  match e.reloc, e.imm with
  | none, _ =>
    modify fun s => { s with contents := s.contents.appendData e.toBytes none }
    return placed
  | some kind, some (.symbol name addend) =>
    let target := Expr.symbol name addend
    if (BranchKind.ofReloc? kind).isSome then
      update fun s => (s.contents.appendBranch e.bits kind target relax).map
        fun contents => { s with contents := contents }
      return { placed with fixup := some ⟨kind, target, false⟩, isBranch := true }
    else
      let fixup : Fixup := ⟨kind, target, kind.mayRelax relax⟩
      modify fun s => { s with contents := s.contents.appendData e.toBytes (some fixup) }
      return { placed with fixup := some fixup }
  | some kind, target => throw (.impossible (.unboundRelocation kind target))

/-! ### Expanding -/

/-- An encoded step of an expansion, with the relocation of the step. -/
def relocate (e : Encoded) : Option (RelocType × Expr) → Encoded
  | none => e
  | some (kind, target) => { e with imm := some target, reloc := some kind }

/-- Carries out a step of the expansion of `pseudo`. -/
def runStep (pseudo : String) (step : Step) : AssemblerM (List Placed) := do
  match step with
  | .label name =>
    addSymbol name
    return []
  | .insn mnemonic operands reloc =>
    let s ← get
    match s.catalogs.instructions.encode (s.context step.mayCompress) mnemonic operands with
    | .error cause =>
      throw (.impossible (.rejectedExpansion pseudo mnemonic (String.ofList operands) cause))
    | .ok e => return [← place (relocate e reloc)]

/-- Carries out steps in order. -/
def runSteps (pseudo : String) : List Step → AssemblerM (List Placed)
  | [] => return []
  | step :: steps => do
    let here ← runStep pseudo step
    let more ← runSteps pseudo steps
    return here ++ more

/-- Expands an encoded pseudo-instruction. -/
def expand (kind : PseudoKind) (e : Encoded) : AssemblerM (List Placed) := do
  let s ← get
  match kind.expand e s.isa.xlen s.options.pic s.labels.nextUpper with
  | .error cause => throw (.instruction cause)
  | .ok (steps, next) =>
    modify fun s => { s with labels := { s.labels with nextUpper := next } }
    runSteps e.template.mnemonic steps

/-! ### Instructions -/

/-- Encodes with a catalog of the session, with references and dots replaced. -/
def encodeIn (catalog : Catalogs → Catalog) (mnemonic : String) (operands : List Char) :
    AssemblerM Encoded := do
  modify fun s => { s with started := true }
  let operands ← resolveReferences operands
  let s ← get
  match (catalog s.catalogs).encode (s.context true) mnemonic operands with
  | .error cause => throw (.instruction cause)
  | .ok e => nameDot e

/-- Assembles an instruction or a pseudo-instruction. -/
def instruction (mnemonic : String) (operands : List Char) : AssemblerM (List Placed) := do
  let e ← encodeIn Catalogs.instructions mnemonic operands
  match e.template.pseudo with
  | some kind => expand kind e
  | none => return [← place e]

/-- Assembles an instruction given field by field, after its type. -/
def fieldInstruction (text : List Char) : AssemblerM (List Placed) := do
  let (type, fields) := Text.firstWord text
  if type.isEmpty then throw (.directive (.malformed .missingInstructionType))
  let e ← encodeIn Catalogs.fieldTypes (String.ofList type) fields
  return [← place e]

end Session

end RiscvAssembler
