import RiscvAssembler.Template.Basic

/-!
Templates of the floating-point instructions. The three precisions share most operations, which
differ in the ending of the mnemonic and in two bits of the word.
-/

namespace RiscvAssembler.Table

/-- A precision: the ending of its mnemonics, its class and its bits in the word. -/
structure Precision where
  ending : String
  needs : InstructionClass
  bits : Word
deriving DecidableEq, Repr

namespace Precision

def single : Precision := ⟨"s", .f, 0x00000000⟩
def double : Precision := ⟨"d", .d, 0x02000000⟩
def quad : Precision := ⟨"q", .q, 0x06000000⟩

/-- An operation of a precision, which `operation` names without the ending. -/
def plain (p : Precision) (operation format : String) (matchBits maskBits : Word) : Row :=
  .insn (operation ++ "." ++ p.ending) none p.needs format (matchBits ||| p.bits) maskBits .opcode

/-- An operation that rounds, in the current mode or in one written after its operands. -/
def rounded (p : Precision) (mnemonic : String) (width : Option Xlen) (format : String)
    (matchBits maskBits : Word) : List Row :=
  [.insn mnemonic width p.needs format (matchBits ||| p.bits ||| 0x7000) (maskBits ||| 0x7000)
      .opcode,
    .insn mnemonic width p.needs (format ++ ",m") (matchBits ||| p.bits) maskBits .opcode]

/-- Moves, signs, arithmetic and conversions to 32-bit integers. -/
def arithmetic (p : Precision) : List Row :=
  let rounds (operation format : String) (matchBits maskBits : Word) :=
    p.rounded (operation ++ "." ++ p.ending) none format matchBits maskBits
  List.flatten
    [[p.plain "fmv" "D,U" 0x20000053 0xfe00707f],
      [p.plain "fneg" "D,U" 0x20001053 0xfe00707f],
      [p.plain "fabs" "D,U" 0x20002053 0xfe00707f],
      [p.plain "fsgnj" "D,S,T" 0x20000053 0xfe00707f],
      [p.plain "fsgnjn" "D,S,T" 0x20001053 0xfe00707f],
      [p.plain "fsgnjx" "D,S,T" 0x20002053 0xfe00707f],
      rounds "fadd" "D,S,T" 0x00000053 0xfe00007f,
      rounds "fsub" "D,S,T" 0x08000053 0xfe00007f,
      rounds "fmul" "D,S,T" 0x10000053 0xfe00007f,
      rounds "fdiv" "D,S,T" 0x18000053 0xfe00007f,
      rounds "fsqrt" "D,S" 0x58000053 0xfff0007f,
      [p.plain "fmin" "D,S,T" 0x28000053 0xfe00707f],
      [p.plain "fmax" "D,S,T" 0x28001053 0xfe00707f],
      rounds "fmadd" "D,S,T,R" 0x00000043 0x0600007f,
      rounds "fnmadd" "D,S,T,R" 0x0000004f 0x0600007f,
      rounds "fmsub" "D,S,T,R" 0x00000047 0x0600007f,
      rounds "fnmsub" "D,S,T,R" 0x0000004b 0x0600007f,
      rounds "fcvt.w" "d,S" 0xc0000053 0xfff0007f,
      rounds "fcvt.wu" "d,S" 0xc0100053 0xfff0007f]

/-- Classification and comparisons. -/
def comparisons (p : Precision) : List Row :=
  [p.plain "fclass" "d,S" 0xe0001053 0xfff0707f,
    p.plain "feq" "d,S,T" 0xa0002053 0xfe00707f,
    p.plain "flt" "d,S,T" 0xa0001053 0xfe00707f,
    p.plain "fle" "d,S,T" 0xa0000053 0xfe00707f,
    p.plain "fgt" "d,T,S" 0xa0001053 0xfe00707f,
    p.plain "fge" "d,T,S" 0xa0000053 0xfe00707f]

/-- Conversions to and from 64-bit integers. -/
def wideConversions (p : Precision) : List Row :=
  List.flatten
    [p.rounded ("fcvt.l." ++ p.ending) (some .rv64) "d,S" 0xc0200053 0xfff0007f,
      p.rounded ("fcvt.lu." ++ p.ending) (some .rv64) "d,S" 0xc0300053 0xfff0007f,
      p.rounded ("fcvt." ++ p.ending ++ ".l") (some .rv64) "D,s" 0xd0200053 0xfff0007f,
      p.rounded ("fcvt." ++ p.ending ++ ".lu") (some .rv64) "D,s" 0xd0300053 0xfff0007f]

end Precision

/-- The floating-point control register, and accesses and moves of single precision. -/
def singleOnlyRows : List Row :=
  [.insn "frcsr" none .f "d" 0x302073 0xfffff07f .opcode,
    .insn "fscsr" none .f "s" 0x301073 0xfff07fff .opcode,
    .insn "fscsr" none .f "d,s" 0x301073 0xfff0707f .opcode,
    .insn "frrm" none .f "d" 0x202073 0xfffff07f .opcode,
    .insn "fsrm" none .f "s" 0x201073 0xfff07fff .opcode,
    .insn "fsrm" none .f "d,s" 0x201073 0xfff0707f .opcode,
    .insn "fsrmi" none .f "d,Z" 0x205073 0xfff0707f .opcode,
    .insn "fsrmi" none .f "Z" 0x205073 0xfff07fff .opcode,
    .insn "frflags" none .f "d" 0x102073 0xfffff07f .opcode,
    .insn "fsflags" none .f "s" 0x101073 0xfff07fff .opcode,
    .insn "fsflags" none .f "d,s" 0x101073 0xfff0707f .opcode,
    .insn "fsflagsi" none .f "d,Z" 0x105073 0xfff0707f .opcode,
    .insn "fsflagsi" none .f "Z" 0x105073 0xfff07fff .opcode,
    .insn "flw" (some .rv32) .fc "D,Cm(Cc)" 0x6002 0xe003 .opcode,
    .insn "flw" (some .rv32) .fc "CD,Ck(Cs)" 0x6000 0xe003 .opcode,
    .insn "flw" none .f "D,o(s)" 0x2007 0x707f .opcode,
    .standsFor "flw" none .f "D,A,s" 0x0 .floatLoad,
    .insn "fsw" (some .rv32) .fc "CT,CM(Cc)" 0xe002 0xe003 .opcode,
    .insn "fsw" (some .rv32) .fc "CD,Ck(Cs)" 0xe000 0xe003 .opcode,
    .insn "fsw" none .f "T,q(s)" 0x2027 0x707f .opcode,
    .standsFor "fsw" none .f "T,A,s" 0x0 .store,
    .insn "fmv.x.w" none .f "d,S" 0xe0000053 0xfff0707f .opcode,
    .insn "fmv.w.x" none .f "D,s" 0xf0000053 0xfff0707f .opcode,
    .insn "fmv.x.s" none .f "d,S" 0xe0000053 0xfff0707f .opcode,
    .insn "fmv.s.x" none .f "D,s" 0xf0000053 0xfff0707f .opcode]

/-- Single precision. -/
def singleRows : List Row :=
  List.flatten
    [singleOnlyRows,
      Precision.single.arithmetic,
      Precision.single.rounded "fcvt.s.w" none "D,s" 0xd0000053 0xfff0007f,
      Precision.single.rounded "fcvt.s.wu" none "D,s" 0xd0100053 0xfff0007f,
      Precision.single.comparisons,
      Precision.single.wideConversions]

/-- Loads and stores of double precision. -/
def doubleAccessRows : List Row :=
  [.insn "fld" none .dc "D,Cn(Cc)" 0x2002 0xe003 .opcode,
    .insn "fld" none .dc "CD,Cl(Cs)" 0x2000 0xe003 .opcode,
    .insn "fld" none .d "D,o(s)" 0x3007 0x707f .opcode,
    .standsFor "fld" none .d "D,A,s" 0x0 .floatLoad,
    .insn "fsd" none .dc "CT,CN(Cc)" 0xa002 0xe003 .opcode,
    .insn "fsd" none .dc "CD,Cl(Cs)" 0xa000 0xe003 .opcode,
    .insn "fsd" none .d "T,q(s)" 0x3027 0x707f .opcode,
    .standsFor "fsd" none .d "T,A,s" 0x0 .store]

/-- Conversions to and from double precision. -/
def doubleConversionRows : List Row :=
  [.insn "fcvt.d.w" none .d "D,s" 0xd2000053 0xfff0707f .opcode,
    .insn "fcvt.d.wu" none .d "D,s" 0xd2100053 0xfff0707f .opcode,
    .insn "fcvt.d.s" none .d "D,S" 0x42000053 0xfff0707f .opcode,
    .insn "fcvt.s.d" none .d "D,S" 0x40107053 0xfff0707f .opcode,
    .insn "fcvt.s.d" none .d "D,S,m" 0x40100053 0xfff0007f .opcode]

/-- Double precision. -/
def doubleRows : List Row :=
  List.flatten
    [doubleAccessRows,
      Precision.double.arithmetic,
      doubleConversionRows,
      Precision.double.comparisons,
      [.insn "fmv.x.d" (some .rv64) .d "d,S" 0xe2000053 0xfff0707f .opcode,
        .insn "fmv.d.x" (some .rv64) .d "D,s" 0xf2000053 0xfff0707f .opcode],
      Precision.double.wideConversions]

/-- Loads and stores of quad precision. -/
def quadAccessRows : List Row :=
  [.insn "flq" none .q "D,o(s)" 0x4007 0x707f .opcode,
    .standsFor "flq" none .q "D,A,s" 0x0 .floatLoad,
    .insn "fsq" none .q "T,q(s)" 0x4027 0x707f .opcode,
    .standsFor "fsq" none .q "T,A,s" 0x0 .store]

/-- Conversions to and from quad precision. -/
def quadConversionRows : List Row :=
  [.insn "fcvt.q.w" none .q "D,s" 0xd6000053 0xfff0707f .opcode,
    .insn "fcvt.q.wu" none .q "D,s" 0xd6100053 0xfff0707f .opcode,
    .insn "fcvt.q.s" none .q "D,S" 0x46000053 0xfff0707f .opcode,
    .insn "fcvt.q.d" none .q "D,S" 0x46100053 0xfff0707f .opcode,
    .insn "fcvt.s.q" none .q "D,S" 0x40307053 0xfff0707f .opcode,
    .insn "fcvt.s.q" none .q "D,S,m" 0x40300053 0xfff0007f .opcode,
    .insn "fcvt.d.q" none .q "D,S" 0x42307053 0xfff0707f .opcode,
    .insn "fcvt.d.q" none .q "D,S,m" 0x42300053 0xfff0007f .opcode]

/-- Quad precision. -/
def quadRows : List Row :=
  List.flatten
    [quadAccessRows,
      Precision.quad.arithmetic,
      quadConversionRows,
      Precision.quad.comparisons,
      Precision.quad.wideConversions]

/-- The floating-point instructions. -/
def floatRows : List Row :=
  [singleRows, doubleRows, quadRows].flatten

end RiscvAssembler.Table
