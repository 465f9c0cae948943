import RiscvAssembler.Branch.Kind
import RiscvAssembler.Isa.Basic
import RiscvAssembler.Register.Names
import RiscvAssembler.Word.Field

/-!
Operands of instruction templates. Every operand knows the bits of the instruction word it owns, a
field or an immediate layout, so a table of templates can be checked to cover each word exactly.
`store` puts the value of an operand into a word and `extract?` reads it back.
-/

namespace RiscvAssembler

/-- Punctuation between operands. -/
inductive Mark where
  | comma
  | leftParen
  | rightParen
deriving DecidableEq, Repr

/-- The character of a mark. -/
def Mark.char : Mark → Char
  | .comma => ','
  | .leftParen => '('
  | .rightParen => ')'

/-- Places for the number of any register. -/
inductive RegisterSlot where
  | rd
  | rs1
  | rs2
  | rs3
  /-- The second source of compressed instructions. -/
  | compressedRs2
deriving DecidableEq, Repr

/-- Places for a register from 8 to 15 in three bits. -/
inductive ShortSlot where
  | rs1
  | rs2
deriving DecidableEq, Repr

/-- Places whose register is written a second time. -/
inductive RepeatedSlot where
  | shortRs1
  | shortRs2
  | rd
deriving DecidableEq, Repr

/-- Registers that an instruction has no choice of. -/
inductive FixedRegister where
  | sp
  | zero
deriving DecidableEq, Repr

/-- Constants kept in a field as they are, each with its range. -/
inductive Ranged where
  /-- A shift of a 32-bit value. -/
  | shamtWord
  /-- A shift of a register. -/
  | shamt
  /-- A constant for a control and status register. -/
  | csrImmediate
  /-- The quadrant of a compressed instruction. -/
  | quadrant
  | funct7
  | funct3
  | funct2
  | compressedFunct6
  | compressedFunct4
  | compressedFunct3
  | compressedFunct2
deriving DecidableEq, Repr

/-- Keywords kept in a field. -/
inductive Keyword where
  | rounding
  | predecessor
  | successor
deriving DecidableEq, Repr

/-- Twelve-bit immediates. -/
inductive Imm12 where
  | arithmetic
  | loadOffset
  | storeOffset
deriving DecidableEq, Repr

/-- Immediates of compressed instructions. -/
inductive CompressedImm where
  | shamt
  | shamtWord
  | unsigned8
  | signed3
  | nonZero6
  | signed6
  | lw
  | ld
  | lwsp
  | ldsp
  | swsp
  | sdsp
  | addi4spn
  | addi16sp
  /-- An upper immediate, as written. -/
  | lui
  /-- An upper immediate, written as the value it loads. -/
  | luiValue
deriving DecidableEq, Repr

/-- An operand of an instruction template. -/
inductive Operand where
  | mark (m : Mark)
  | register (bank : Bank) (slot : RegisterSlot)
  /-- One floating-point register for both sources. -/
  | bothSources
  | shortRegister (bank : Bank) (slot : ShortSlot)
  /-- The register already in a slot. -/
  | repeated (slot : RepeatedSlot)
  | fixed (r : FixedRegister)
  | ranged (r : Ranged)
  /-- A control and status register, by name or number. -/
  | csr
  | keyword (k : Keyword)
  | imm12 (i : Imm12)
  /-- A marker for an addition to the thread pointer. -/
  | tprelAdd
  /-- The offset of an atomic access, which is zero. -/
  | zeroOffset
  /-- A literal zero. -/
  | zero
  | upper
  /-- The target of a branch. -/
  | target (k : BranchKind)
  /-- The target of a call, perhaps through the linkage table. -/
  | call
  /-- A constant of a pseudo-instruction. -/
  | constant
  /-- A symbol of a pseudo-instruction. -/
  | symbol
  /-- A symbol or a constant of a pseudo-instruction. -/
  | address
  /-- A major opcode, by name or number. -/
  | opcode
  | compressedImm (i : CompressedImm)
deriving DecidableEq, Repr

/-! ### Bits of the word -/

namespace RegisterSlot

/-- The field of a slot. -/
def field : RegisterSlot → Field
  | .rd => .rd
  | .rs1 => .rs1
  | .rs2 => .rs2
  | .rs3 => .rs3
  | .compressedRs2 => .compressedRs2

end RegisterSlot

/-- The field of a short slot. -/
def ShortSlot.field : ShortSlot → Field
  | .rs1 => .shortRs1
  | .rs2 => .shortRs2

/-- The number of the register that stands in a repeated slot. -/
def RepeatedSlot.number (slot : RepeatedSlot) (word : Word) : Nat :=
  match slot with
  | .shortRs1 => (Field.shortRs1.extract word).toNat + 8
  | .shortRs2 => (Field.shortRs2.extract word).toNat + 8
  | .rd => (Field.rd.extract word).toNat

/-- The number of a fixed register. -/
def FixedRegister.number : FixedRegister → Nat
  | .sp => 2
  | .zero => 0

namespace Ranged

/-- The field of a ranged constant. -/
def field : Ranged → Field
  | .shamtWord => .shamtWord
  | .shamt => .shamt
  | .csrImmediate => .rs1
  | .quadrant => .quadrant
  | .funct7 => .funct7
  | .funct3 => .funct3
  | .funct2 => .funct2
  | .compressedFunct6 => .compressedFunct6
  | .compressedFunct4 => .compressedFunct4
  | .compressedFunct3 => .compressedFunct3
  | .compressedFunct2 => .compressedFunct2

/-- The largest value of a ranged constant; the smallest is zero. -/
def limit (xlen : Xlen) : Ranged → Int64
  | .shamtWord | .csrImmediate => 31
  | .shamt => match xlen with
    | .rv32 => 31
    | .rv64 => 63
  | .quadrant => 2
  | .funct7 => 127
  | .funct3 | .compressedFunct3 => 7
  | .funct2 | .compressedFunct2 => 3
  | .compressedFunct6 => 63
  | .compressedFunct4 => 15

end Ranged

/-- The field of a keyword. -/
def Keyword.field : Keyword → Field
  | .rounding => .rounding
  | .predecessor => .predecessor
  | .successor => .successor

/-- The layout of a twelve-bit immediate. -/
def Imm12.immediate : Imm12 → Immediate
  | .arithmetic | .loadOffset => .i
  | .storeOffset => .s

namespace CompressedImm

/-- The layout of a compressed immediate. -/
def immediate : CompressedImm → Immediate
  | .shamt | .shamtWord | .nonZero6 | .signed6 | .lui | .luiValue => .ci
  | .unsigned8 => .cUnsigned8
  | .signed3 => .cSigned3
  | .lw => .cLw
  | .ld => .cLd
  | .lwsp => .cLwsp
  | .ldsp => .cLdsp
  | .swsp => .cSwsp
  | .sdsp => .cSdsp
  | .addi4spn => .cAddi4spn
  | .addi16sp => .cAddi16sp

/-- The part of a written value that the layout carries. -/
def stored (i : CompressedImm) (value : Int64) : Int64 :=
  match i with
  | .luiValue => Int64.ofBitVec (value.toBitVec.sshiftRight 12)
  | _ => value

/-- Whether a written value has a compressed encoding. -/
def allows (xlen : Xlen) (i : CompressedImm) (value : Int64) : Bool :=
  match i with
  | .shamt => 1 ≤ value && value ≤ Ranged.shamt.limit xlen
  | .shamtWord => 1 ≤ value && value ≤ 31
  | .signed3 | .nonZero6 | .addi4spn | .addi16sp => value != 0 && i.immediate.fits value
  | .unsigned8 | .signed6 | .lw | .ld | .lwsp | .ldsp | .swsp | .sdsp => i.immediate.fits value
  | .lui => (1 ≤ value && value < 32) || (0xfffe0 ≤ value && value ≤ 0xfffff)
  | .luiValue =>
    value != 0 && value.toBitVec &&& 0xfff == 0 && i.immediate.fits (i.stored value)

end CompressedImm

namespace Operand

/-- The field of an operand that is kept in a field. -/
def field? : Operand → Option Field
  | .register _ slot => some slot.field
  | .shortRegister _ slot => some slot.field
  | .ranged r => some r.field
  | .csr => some .csr
  | .keyword k => some k.field
  | .opcode => some .opcode
  | _ => none

/-- The layout of an operand that is scattered over the word. -/
def immediate? : Operand → Option Immediate
  | .imm12 i => some i.immediate
  | .upper => some .u
  | .target k => some k.immediate
  | .compressedImm i => some i.immediate
  | _ => none

/-- The word bits that an operand accounts for. -/
def bits (op : Operand) : Word :=
  match op with
  | .bothSources => Field.rs1.mask ||| Field.rs2.mask
  | _ =>
    match op.field?, op.immediate? with
    | some f, _ => f.mask
    | none, some l => l.mask
    | none, none => 0

/-- Whether the operand is an offset that may be left out before a base register. -/
def mayBeOmitted : Operand → Bool
  | .imm12 .loadOffset | .imm12 .storeOffset | .zeroOffset => true
  | .compressedImm i =>
    match i with
    | .lw | .ld | .lwsp | .ldsp | .swsp | .sdsp => true
    | _ => false
  | _ => false

/-- Whether the operand is a register from 8 to 15 in three bits. -/
def isShortRegister : Operand → Bool
  | .shortRegister .. => true
  | _ => false

/-- What diagnostics call the operand. -/
def description : Operand → String
  | .ranged r =>
    match r with
    | .shamtWord | .shamt => "shift amount"
    | .csrImmediate => "CSR immediate"
    | .quadrant => "opcode"
    | _ => "function field"
  | .compressedImm .shamt | .compressedImm .shamtWord => "shift amount"
  | .csr => "CSR address"
  | .upper | .compressedImm .lui | .compressedImm .luiValue => "lui immediate"
  | .opcode => "opcode"
  | .zeroOffset | .zero => "zero operand"
  | _ => "immediate"

/-! ### Values in the word -/

/-- The word with the value of an operand put into its bits. -/
def store (op : Operand) (word : Word) (value : Int64) : Word :=
  match op with
  | .bothSources =>
    Field.rs2.insert (Field.rs1.insert word value.toBitVec) value.toBitVec
  | .shortRegister _ slot => slot.field.insert word (value - 8).toBitVec
  | .upper => word ||| Immediate.u.encode (Int64.ofBitVec (value.toBitVec <<< 12))
  | .compressedImm i => word ||| i.immediate.encode (i.stored value)
  | _ =>
    match op.field?, op.immediate? with
    | some f, _ => f.insert word value.toBitVec
    | none, some l => word ||| l.encode value
    | none, none => word

/-- The value of an operand in `word`, for operands that have bits of their own. -/
def extract? (op : Operand) (word : Word) : Option Int64 :=
  match op with
  | .bothSources => some (Int64.ofBitVec (Field.rs1.extract word))
  | .shortRegister _ slot => some (Int64.ofBitVec (slot.field.extract word) + 8)
  | .upper => some (Int64.ofBitVec ((Immediate.u.extract word).toBitVec.sshiftRight 12))
  | .compressedImm .lui =>
    some (Int64.ofBitVec ((Immediate.ci.extract word).toBitVec &&& 0xfffff))
  | .compressedImm .luiValue =>
    some (Int64.ofBitVec ((Immediate.ci.extract word).toBitVec <<< 12))
  | _ =>
    match op.field?, op.immediate? with
    | some f, _ => some (Int64.ofBitVec (f.extract word))
    | none, some l => some (l.extract word)
    | none, none => none

end Operand

end RiscvAssembler
