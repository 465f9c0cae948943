import RiscvAssembler.Error
import RiscvAssembler.Operand.Format
import RiscvAssembler.Pseudo.Kind

/-!
Instruction templates. A template fixes the bits of its mask, and its operands own the others.
`Template.validate` checks that mask and operands share no bit and cover the word exactly.
-/

namespace RiscvAssembler

/-- The subsets that an instruction belongs to. -/
inductive InstructionClass where
  | i
  | c
  | a
  | m
  | f
  | d
  | q
  /-- Compressed, on single-precision registers. -/
  | fc
  /-- Compressed, on double-precision registers. -/
  | dc
deriving DecidableEq, Repr

namespace InstructionClass

/-- Every class. -/
def all : List InstructionClass :=
  [.i, .c, .a, .m, .f, .d, .q, .fc, .dc]

/-- Whether an instruction set has the class. Compressed classes are also switched by `rvc`. -/
def isPartOf (isa : Isa) (rvc : Bool) : InstructionClass → Bool
  | .i => isa.has "i"
  | .c => rvc && isa.has "c"
  | .a => isa.has "a"
  | .m => isa.has "m"
  | .f => isa.has "f"
  | .d => isa.has "d"
  | .q => isa.has "q"
  | .fc => rvc && isa.has "c" && isa.has "f"
  | .dc => rvc && isa.has "c" && isa.has "d"

end InstructionClass

/-- What the assembled word of a template has to satisfy. -/
inductive Guard where
  /-- The fixed bits. -/
  | opcode
  /-- A destination other than `x0`. -/
  | rdNonZero
  /-- A destination and a second source other than `x0`. -/
  | cAdd
  /-- The destination `x0`. -/
  | cNop
  /-- The destination `sp`. -/
  | cAddi16sp
  /-- A destination other than `x0` and `sp`, and an immediate other than zero. -/
  | cLui
  /-- An immediate other than zero. -/
  | cAddi4spn
  /-- A destination other than `x0`, and a shift other than zero. -/
  | leftShift
  /-- A shift other than zero. -/
  | rightShift
  /-- Nothing satisfies it. -/
  | never
deriving DecidableEq, Repr

/-- Length in bytes of the instruction that a word starts. -/
def instructionLength (word : Word) : Nat :=
  if word &&& 0b11 ≠ 0b11 then 2
  else if word &&& 0x1f ≠ 0x1f then 4
  else if word &&& 0x3f = 0x1f then 6
  else if word &&& 0x7f = 0x3f then 8
  else 2

/-- An instruction template. -/
structure Template where
  mnemonic : String
  /-- The register width it needs, if not any. -/
  width : Option Xlen
  needs : InstructionClass
  format : String
  matchBits : Word
  maskBits : Word
  guard : Guard
  /-- For a pseudo-instruction, what it stands for. -/
  pseudo : Option PseudoKind
  /-- The operands that the format spells. -/
  operands : List Operand
  /-- Length in bytes. -/
  length : Nat
deriving DecidableEq, Repr

namespace Template

/-- Whether the template stands for other instructions. -/
def isPseudo (t : Template) : Bool :=
  t.pseudo.isSome

/-- Whether the template is a compressed instruction. -/
def isCompressed (t : Template) : Bool :=
  !t.isPseudo && t.length == 2

/-- Mnemonic and format. -/
def display (t : Template) : String :=
  if t.format.isEmpty then t.mnemonic else t.mnemonic ++ " " ++ t.format

/-- Whether an assembled word satisfies the guard of its template. -/
def admits (t : Template) (word : Word) : Bool :=
  let fixed := (word ^^^ t.matchBits) &&& t.maskBits == 0
  let rd := Field.rd.extract word
  let ci := Immediate.ci.extract word
  match t.guard with
  | .opcode => fixed
  | .rdNonZero => fixed && rd != 0
  | .cAdd => fixed && rd != 0 && Field.compressedRs2.extract word != 0
  | .cNop => fixed && rd == 0
  | .cAddi16sp => fixed && rd == 2
  | .cLui => fixed && rd != 0 && rd != 2 && ci != 0
  | .cAddi4spn => fixed && Immediate.cAddi4spn.extract word != 0
  | .leftShift => fixed && rd != 0 && ci != 0
  | .rightShift => fixed && ci != 0
  | .never => false

/-- The number of bits in `length` bytes, kept in 32 bits. -/
def bitWidth (length : Nat) : Nat :=
  8 * length % 0x100000000

/-- The bits of a word of `length` bytes; all of them if the word has no room for so many. -/
def wordBits (length : Nat) : Word :=
  Word.lowMask (min 64 (bitWidth length))

/-- The bits that the operands own. -/
def operandBits (operands : List Operand) : Word :=
  operands.foldr (fun op acc => op.bits ||| acc) 0

/-- Checks that the bits of a template are consistent with a length, by default the one that its
fixed bits announce. Pseudo-instructions have no bits to check. -/
def validate (t : Template) (length : Option Nat) : Except Defect Unit :=
  let required := wordBits (length.getD (instructionLength t.matchBits))
  let overlap := operandBits t.operands &&& t.maskBits
  let used := t.maskBits ||| operandBits t.operands
  if t.isPseudo then .ok ()
  else if t.maskBits &&& t.matchBits ≠ t.matchBits &&& required then
    .error (.maskMismatch t.mnemonic t.format)
  else if overlap ≠ 0 then .error (.fixedOperand t.mnemonic t.format overlap)
  else if used ≠ required then
    .error (.uncoveredBits t.mnemonic t.format (used ^^^ required))
  else .ok ()

end Template

/-- A row of a table of templates, with its operands still spelt. -/
structure Row where
  mnemonic : String
  width : Option Xlen
  needs : InstructionClass
  format : String
  matchBits : Word
  maskBits : Word
  guard : Guard
  pseudo : Option PseudoKind
  /-- The length in bytes, if not the one that the fixed bits announce. -/
  length : Option Nat
deriving DecidableEq, Repr

namespace Row

/-- An instruction. -/
def insn (mnemonic : String) (width : Option Xlen) (needs : InstructionClass) (format : String)
    (matchBits maskBits : Word) (guard : Guard) : Row :=
  ⟨mnemonic, width, needs, format, matchBits, maskBits, guard, none, none⟩

/-- A pseudo-instruction; `preset` holds the registers that it does not let one choose. -/
def standsFor (mnemonic : String) (width : Option Xlen) (needs : InstructionClass) (format : String)
    (preset : Word) (kind : PseudoKind) : Row :=
  ⟨mnemonic, width, needs, format, preset, 0, .never, some kind, none⟩

/-- An instruction given field by field, of which no bit is fixed. -/
def fields (type : String) (needs : InstructionClass) (format : String) (length : Nat) : Row :=
  ⟨type, none, needs, format, 0, 0, .opcode, none, some length⟩

/-- The template of a row. -/
def toTemplate (r : Row) : Except Defect Template :=
  match Format.read r.format.toList with
  | .error code => .error (.unknownOperand r.mnemonic (String.ofList code))
  | .ok operands =>
    .ok { mnemonic := r.mnemonic, width := r.width, needs := r.needs, format := r.format,
          matchBits := r.matchBits, maskBits := r.maskBits, guard := r.guard,
          pseudo := r.pseudo, operands := operands,
          length := r.length.getD (instructionLength r.matchBits) }

end Row

end RiscvAssembler
