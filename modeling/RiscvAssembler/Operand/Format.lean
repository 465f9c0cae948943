import RiscvAssembler.Operand.Basic

/-!
Operand formats: the operands of a template written in codes of one to three characters, such as
`d,s,j` or `Ct,Ck(Cs)`. No code is the beginning of another one, so a format reads back as the
operands it was written from.
-/

namespace RiscvAssembler

namespace Operand

/-- The code of an operand. -/
def code : Operand → List Char
  | .mark m => [m.char]
  | .register .integer .rd => "d".toList
  | .register .integer .rs1 => "s".toList
  | .register .integer .rs2 => "t".toList
  | .register .integer .rs3 => "r".toList
  | .register .integer .compressedRs2 => "CV".toList
  | .register .float .rd => "D".toList
  | .register .float .rs1 => "S".toList
  | .register .float .rs2 => "T".toList
  | .register .float .rs3 => "R".toList
  | .register .float .compressedRs2 => "CT".toList
  | .bothSources => "U".toList
  | .shortRegister .integer .rs1 => "Cs".toList
  | .shortRegister .integer .rs2 => "Ct".toList
  | .shortRegister .float .rs1 => "CS".toList
  | .shortRegister .float .rs2 => "CD".toList
  | .repeated .shortRs1 => "Cw".toList
  | .repeated .shortRs2 => "Cx".toList
  | .repeated .rd => "CU".toList
  | .fixed .sp => "Cc".toList
  | .fixed .zero => "Cz".toList
  | .ranged .shamtWord => "<".toList
  | .ranged .shamt => ">".toList
  | .ranged .csrImmediate => "Z".toList
  | .ranged .quadrant => "O2".toList
  | .ranged .funct7 => "F7".toList
  | .ranged .funct3 => "F3".toList
  | .ranged .funct2 => "F2".toList
  | .ranged .compressedFunct6 => "CF6".toList
  | .ranged .compressedFunct4 => "CF4".toList
  | .ranged .compressedFunct3 => "CF3".toList
  | .ranged .compressedFunct2 => "CF2".toList
  | .csr => "E".toList
  | .keyword .rounding => "m".toList
  | .keyword .predecessor => "P".toList
  | .keyword .successor => "Q".toList
  | .imm12 .arithmetic => "j".toList
  | .imm12 .loadOffset => "o".toList
  | .imm12 .storeOffset => "q".toList
  | .tprelAdd => "1".toList
  | .zeroOffset => "0".toList
  | .zero => "z".toList
  | .upper => "u".toList
  | .target .branch => "p".toList
  | .target .jump => "a".toList
  | .target .shortBranch => "Cp".toList
  | .target .shortJump => "Ca".toList
  | .call => "c".toList
  | .constant => "I".toList
  | .symbol => "A".toList
  | .address => "B".toList
  | .opcode => "O4".toList
  | .compressedImm .shamt => "C>".toList
  | .compressedImm .shamtWord => "C<".toList
  | .compressedImm .unsigned8 => "C8".toList
  | .compressedImm .signed3 => "Ci".toList
  | .compressedImm .nonZero6 => "Cj".toList
  | .compressedImm .signed6 => "Co".toList
  | .compressedImm .lw => "Ck".toList
  | .compressedImm .ld => "Cl".toList
  | .compressedImm .lwsp => "Cm".toList
  | .compressedImm .ldsp => "Cn".toList
  | .compressedImm .swsp => "CM".toList
  | .compressedImm .sdsp => "CN".toList
  | .compressedImm .addi4spn => "CK".toList
  | .compressedImm .addi16sp => "CL".toList
  | .compressedImm .lui => "Cu".toList
  | .compressedImm .luiValue => "Cv".toList

end Operand

namespace Format

/-- The format of a list of operands. -/
def write (operands : List Operand) : List Char :=
  operands.flatMap Operand.code

/-- The operand with a code of one character. -/
def single? : Char → Option Operand
  | ',' => some (.mark .comma)
  | '(' => some (.mark .leftParen)
  | ')' => some (.mark .rightParen)
  | 'd' => some (.register .integer .rd)
  | 's' => some (.register .integer .rs1)
  | 't' => some (.register .integer .rs2)
  | 'r' => some (.register .integer .rs3)
  | 'D' => some (.register .float .rd)
  | 'S' => some (.register .float .rs1)
  | 'T' => some (.register .float .rs2)
  | 'R' => some (.register .float .rs3)
  | 'U' => some .bothSources
  | '<' => some (.ranged .shamtWord)
  | '>' => some (.ranged .shamt)
  | 'Z' => some (.ranged .csrImmediate)
  | 'E' => some .csr
  | 'm' => some (.keyword .rounding)
  | 'P' => some (.keyword .predecessor)
  | 'Q' => some (.keyword .successor)
  | 'j' => some (.imm12 .arithmetic)
  | 'o' => some (.imm12 .loadOffset)
  | 'q' => some (.imm12 .storeOffset)
  | '1' => some .tprelAdd
  | '0' => some .zeroOffset
  | 'u' => some .upper
  | 'p' => some (.target .branch)
  | 'a' => some (.target .jump)
  | 'c' => some .call
  | 'I' => some .constant
  | 'A' => some .symbol
  | 'B' => some .address
  | 'z' => some .zero
  | _ => none

/-- The operand whose code is `O` and a second character. -/
def opcode? : Char → Option Operand
  | '4' => some .opcode
  | '2' => some (.ranged .quadrant)
  | _ => none

/-- The operand whose code is `F` and a second character. -/
def function? : Char → Option Operand
  | '7' => some (.ranged .funct7)
  | '3' => some (.ranged .funct3)
  | '2' => some (.ranged .funct2)
  | _ => none

/-- The operand whose code is `CF` and a third character. -/
def compressedFunction? : Char → Option Operand
  | '6' => some (.ranged .compressedFunct6)
  | '4' => some (.ranged .compressedFunct4)
  | '3' => some (.ranged .compressedFunct3)
  | '2' => some (.ranged .compressedFunct2)
  | _ => none

/-- The operand whose code is `C` and a second character. -/
def compressed? : Char → Option Operand
  | 's' => some (.shortRegister .integer .rs1)
  | 'w' => some (.repeated .shortRs1)
  | 't' => some (.shortRegister .integer .rs2)
  | 'x' => some (.repeated .shortRs2)
  | 'U' => some (.repeated .rd)
  | 'V' => some (.register .integer .compressedRs2)
  | 'c' => some (.fixed .sp)
  | 'z' => some (.fixed .zero)
  | 'S' => some (.shortRegister .float .rs1)
  | 'D' => some (.shortRegister .float .rs2)
  | 'T' => some (.register .float .compressedRs2)
  | '>' => some (.compressedImm .shamt)
  | '<' => some (.compressedImm .shamtWord)
  | '8' => some (.compressedImm .unsigned8)
  | 'i' => some (.compressedImm .signed3)
  | 'j' => some (.compressedImm .nonZero6)
  | 'o' => some (.compressedImm .signed6)
  | 'k' => some (.compressedImm .lw)
  | 'l' => some (.compressedImm .ld)
  | 'm' => some (.compressedImm .lwsp)
  | 'n' => some (.compressedImm .ldsp)
  | 'M' => some (.compressedImm .swsp)
  | 'N' => some (.compressedImm .sdsp)
  | 'K' => some (.compressedImm .addi4spn)
  | 'L' => some (.compressedImm .addi16sp)
  | 'u' => some (.compressedImm .lui)
  | 'v' => some (.compressedImm .luiValue)
  | 'p' => some (.target .shortBranch)
  | 'a' => some (.target .shortJump)
  | _ => none

/-- The operand of a code and those of the rest, or the code if no operand has it. -/
def push (code : List Char) (op : Option Operand) (rest : Except (List Char) (List Operand)) :
    Except (List Char) (List Operand) :=
  match op with
  | some op => rest.map (op :: ·)
  | none => .error code

/-- The operands of a format, or the first code that no operand has. -/
def read : List Char → Except (List Char) (List Operand)
  | [] => .ok []
  | ['O'] => .error ['O']
  | 'O' :: c :: rest => push ['O', c] (opcode? c) (read rest)
  | ['F'] => .error ['F']
  | 'F' :: c :: rest => push ['F', c] (function? c) (read rest)
  | ['C'] => .error ['C']
  | ['C', 'F'] => .error ['C', 'F']
  | 'C' :: 'F' :: c :: rest => push ['C', 'F', c] (compressedFunction? c) (read rest)
  | 'C' :: c :: rest => push ['C', c] (compressed? c) (read rest)
  | c :: rest => push [c] (single? c) (read rest)

end Format

end RiscvAssembler
