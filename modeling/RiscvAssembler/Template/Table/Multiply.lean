import RiscvAssembler.Template.Basic

/-!
Templates of multiplications and divisions.
-/

namespace RiscvAssembler.Table

/-- Multiplications and divisions. -/
def multiplyRows : List Row :=
  [.insn "mul" none .m "d,s,t" 0x2000033 0xfe00707f .opcode,
    .insn "mulh" none .m "d,s,t" 0x2001033 0xfe00707f .opcode,
    .insn "mulhu" none .m "d,s,t" 0x2003033 0xfe00707f .opcode,
    .insn "mulhsu" none .m "d,s,t" 0x2002033 0xfe00707f .opcode,
    .insn "div" none .m "d,s,t" 0x2004033 0xfe00707f .opcode,
    .insn "divu" none .m "d,s,t" 0x2005033 0xfe00707f .opcode,
    .insn "rem" none .m "d,s,t" 0x2006033 0xfe00707f .opcode,
    .insn "remu" none .m "d,s,t" 0x2007033 0xfe00707f .opcode,
    .insn "mulw" (some .rv64) .m "d,s,t" 0x200003b 0xfe00707f .opcode,
    .insn "divw" (some .rv64) .m "d,s,t" 0x200403b 0xfe00707f .opcode,
    .insn "divuw" (some .rv64) .m "d,s,t" 0x200503b 0xfe00707f .opcode,
    .insn "remw" (some .rv64) .m "d,s,t" 0x200603b 0xfe00707f .opcode,
    .insn "remuw" (some .rv64) .m "d,s,t" 0x200703b 0xfe00707f .opcode]

end RiscvAssembler.Table
