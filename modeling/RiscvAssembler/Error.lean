import RiscvAssembler.Expr.Basic
import RiscvAssembler.Isa.Reader
import RiscvAssembler.Reloc.Basic

/-!
Errors, as causes. User errors concern the text given to the assembler and end one statement; a
defect means that a table or the bookkeeping of branches contradicts itself and ends the session.
The wording of every error stands in its `message`.
-/

namespace RiscvAssembler

/-! ### Instructions -/

/-- Why an instruction is rejected. -/
inductive InstructionError where
  /-- No template has the mnemonic in this instruction set. -/
  | unknownMnemonic (mnemonic : String)
  /-- Templates have the mnemonic, but none takes the operands. -/
  | illegalOperands (mnemonic operands : String)
  /-- A number is outside its range. -/
  | outOfRange (what : String) (value low high : Int64)
  /-- A symbol stands where a control and status register should. -/
  | unknownCsr (name : String)
  /-- A relocation needs a symbol but has a constant. -/
  | unsupportedRelocation (kind : RelocType)
  /-- An operand has to be a constant. -/
  | requiresConstant (mnemonic : String)
  /-- A parenthesis is not closed. -/
  | unclosedParen
deriving DecidableEq, Repr

/-- What diagnostics say of a rejected instruction. -/
def InstructionError.message : InstructionError → String
  | .unknownMnemonic mnemonic => "unrecognized opcode `" ++ mnemonic ++ "'"
  | .illegalOperands mnemonic operands =>
    "illegal operands `" ++ mnemonic ++ " " ++ operands ++ "'"
  | .outOfRange what value low high =>
    "improper " ++ what ++ " (" ++ Text.decimalText value.toInt ++ "), expected [" ++
      Text.decimalText low.toInt ++ ".." ++ Text.decimalText high.toInt ++ "]"
  | .unknownCsr name => "unknown CSR `" ++ name ++ "'"
  | .unsupportedRelocation kind => "relocation `" ++ kind.display ++ "' is not supported here"
  | .requiresConstant mnemonic => "`" ++ mnemonic ++ "' requires a constant operand"
  | .unclosedParen => "unclosed '('"

/-! ### Directives -/

/-- What is wrong with the arguments of a directive or setting. -/
inductive Malformation where
  /-- The calling convention is wider than the registers. -/
  | abiTooWide (abi isa : Xlen)
  /-- The calling convention is narrower than the registers. -/
  | abiTooNarrow (abi isa : Xlen)
  /-- An instruction is given field by field without its type. -/
  | missingInstructionType
  /-- An attribute has no comma after its tag. -/
  | attributeWithoutValue (arguments : String)
  /-- The value of an attribute is not quoted. -/
  | attributeNotQuoted (value : String)
  /-- An attribute has an unknown tag. -/
  | unknownAttribute (tag : String)
deriving DecidableEq, Repr

namespace Malformation

/-- The directive or setting concerned. -/
def subject : Malformation → String
  | .abiTooWide .. | .abiTooNarrow .. => "-mabi"
  | .missingInstructionType => ".insn"
  | .attributeWithoutValue _ | .attributeNotQuoted _ | .unknownAttribute _ => ".attribute"

/-- What is wrong with it. -/
def detail : Malformation → String
  | .abiTooWide abi isa =>
    "can't have " ++ Text.decimalText abi.bits ++ "-bit ABI on " ++
      Text.decimalText isa.bits ++ "-bit ISA"
  | .abiTooNarrow abi isa =>
    Text.decimalText abi.bits ++ "-bit ABI not yet supported on " ++
      Text.decimalText isa.bits ++ "-bit ISA"
  | .missingInstructionType => "missing instruction type"
  | .attributeWithoutValue arguments => "expected `<tag>, <value>', got `" ++ arguments ++ "'"
  | .attributeNotQuoted value => "expected a quoted string, got `" ++ value ++ "'"
  | .unknownAttribute tag => "unknown attribute `" ++ tag ++ "'"

end Malformation

/-- Why a directive is rejected. -/
inductive DirectiveError where
  /-- Options are restored that were never saved. -/
  | optionStackEmpty
  /-- The instruction set is changed after an instruction. -/
  | archAfterInstructions
  | malformed (m : Malformation)
  | unknown (directive : String)
  /-- An option is unknown; this is only a warning. -/
  | unrecognizedOption (name : String)
deriving DecidableEq, Repr

/-- What diagnostics say of a rejected directive. -/
def DirectiveError.message : DirectiveError → String
  | .optionStackEmpty => ".option pop with no .option push"
  | .archAfterInstructions => ".attribute arch must be set before any instructions"
  | .malformed m => m.subject ++ ": " ++ m.detail
  | .unknown directive => "unknown directive `" ++ directive ++ "'"
  | .unrecognizedOption name => "unrecognized .option directive: " ++ name

/-! ### Defects -/

/-- A state that the catalogs and the bookkeeping rule out. -/
inductive Impossibility where
  /-- A relocation that is no branch is to be relaxed. -/
  | notABranch (kind : RelocType)
  /-- A branch is asked for that was never created. -/
  | noBranch (index : Nat)
  /-- A word is no compressed branch. -/
  | notACompressedBranch (word : Word)
  /-- A branch has a target that is no symbol. -/
  | branchTarget (target : Expr)
  /-- A relocation has a register for its target. -/
  | registerTarget (name : String)
  /-- A pseudo-instruction stands for an instruction that is rejected. -/
  | rejectedExpansion (pseudo mnemonic operands : String) (cause : InstructionError)
  /-- A relocation has no symbol for its target. -/
  | unboundRelocation (kind : RelocType) (target : Option Expr)
  /-- The templates of a mnemonic do not stand together. -/
  | scatteredTemplates (mnemonic : String)
deriving DecidableEq, Repr

/-- The text of a target that may be missing. -/
def Impossibility.targetText : Option Expr → String
  | none => "None"
  | some (.constant value) => "Some(Constant(" ++ Text.decimalText value.toInt ++ "))"
  | some (.symbol name addend) =>
    "Some(Symbol \x7b name: \"" ++ name ++ "\", addend: " ++ Text.decimalText addend.toInt ++
      " \x7d)"
  | some (.register name) => "Some(Register(\"" ++ name ++ "\"))"

/-- What diagnostics say of an impossible state. -/
def Impossibility.message : Impossibility → String
  | .notABranch kind => kind.display ++ " is not a relaxable branch"
  | .noBranch index => "no frag " ++ Text.decimalText index
  | .notACompressedBranch word => Text.hexText 4 word.toNat ++ " is not a compressed branch"
  | .branchTarget target => "relaxed branch against non-symbol `" ++ target.display ++ "'"
  | .registerTarget name => "fixup against register `" ++ name ++ "'"
  | .rejectedExpansion pseudo mnemonic operands cause =>
    "expansion of `" ++ pseudo ++ "' produced `" ++ mnemonic ++ " " ++ operands ++ "': " ++
      cause.message
  | .unboundRelocation kind target =>
    kind.display ++ " without a symbolic target (" ++ targetText target ++ ")"
  | .scatteredTemplates mnemonic => "templates for `" ++ mnemonic ++ "' are not contiguous"

/-- A contradiction in a table or in the bookkeeping of branches. -/
inductive Defect where
  /-- A format has a code that no operand has. -/
  | unknownOperand (mnemonic code : String)
  /-- A template fixes bits that its mask leaves open. -/
  | maskMismatch (mnemonic format : String)
  /-- The mask and the operands of a template leave bits open, or go past its end. -/
  | uncoveredBits (mnemonic format : String) (bits : Word)
  /-- An operand of a template lies under its mask. -/
  | fixedOperand (mnemonic format : String) (bits : Word)
  /-- A branch has a length with which it does not reach its target. -/
  | cannotReach (length : Nat) (distance : Option Int64)
  | impossible (i : Impossibility)
deriving DecidableEq, Repr

/-- What diagnostics say of a defect. -/
def Defect.message : Defect → String
  | .unknownOperand mnemonic code =>
    "internal: unknown operand `" ++ code ++ "' in `" ++ mnemonic ++ "'"
  | .maskMismatch mnemonic format =>
    "internal: bad opcode (mask error): " ++ mnemonic ++ " " ++ format
  | .uncoveredBits mnemonic format bits =>
    "internal: bad opcode (bits " ++ Text.hexText 1 bits.toNat ++ " undefined): " ++
      mnemonic ++ " " ++ format
  | .fixedOperand mnemonic format bits =>
    "internal: bad opcode (operand bits " ++ Text.hexText 1 bits.toNat ++
      " fixed by mask): " ++ mnemonic ++ " " ++ format
  | .cannotReach length distance =>
    let reach := match distance with
      | none => "None"
      | some d => "Some(" ++ Text.decimalText d.toInt ++ ")"
    "internal: relaxed branch of " ++ Text.decimalText length ++ " bytes cannot reach " ++ reach
  | .impossible i => "internal: unreachable: " ++ i.message

/-! ### All errors -/

/-- Any error of the assembler. -/
inductive Error where
  | isa (e : IsaError)
  | instruction (e : InstructionError)
  | directive (e : DirectiveError)
  | defect (d : Defect)
  /-- A symbol is defined twice. -/
  | duplicateSymbol (name : String)
  /-- A numeric label is used but not defined. -/
  | undefinedLocalLabel (token : String)
  /-- The sizes of branches did not settle. -/
  | relaxationLimit (passes : Nat)
deriving DecidableEq, Repr

/-- How serious an error is. -/
inductive Severity where
  | warning
  | error
deriving DecidableEq, Repr

namespace Error

/-- What diagnostics say of an error. -/
def message : Error → String
  | .isa e => e.message
  | .instruction e => e.message
  | .directive e => e.message
  | .defect d => d.message
  | .duplicateSymbol name => "symbol `" ++ name ++ "' is already defined"
  | .undefinedLocalLabel token => "undefined local label `" ++ token ++ "'"
  | .relaxationLimit passes =>
    "assembly exceeded maximum of " ++ Text.decimalText passes ++ " relaxation passes"

/-- Whether an error ends the session. -/
def endsSession : Error → Bool
  | .defect _ | .relaxationLimit _ => true
  | _ => false

/-- How serious an error is: only an unknown option is a mere warning. -/
def severity : Error → Severity
  | .directive (.unrecognizedOption _) => .warning
  | _ => .error

/-- The error of an impossible state. -/
def impossible (i : Impossibility) : Error :=
  .defect (.impossible i)

end Error

/-- An error with the statement it concerns. -/
structure Diagnostic where
  severity : Severity
  message : String
  offending : String
deriving DecidableEq, Repr

/-- The diagnostic of an error in a statement. -/
def Diagnostic.ofError (e : Error) (offending : String) : Diagnostic :=
  ⟨e.severity, e.message, offending⟩

end RiscvAssembler
