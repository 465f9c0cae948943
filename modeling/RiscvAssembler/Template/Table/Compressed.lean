import RiscvAssembler.Template.Basic

/-!
Templates of the compressed instructions under mnemonics of their own.
-/

namespace RiscvAssembler.Table

/-- Compressed instructions. -/
def compressedRows : List Row :=
  [.insn "c.unimp" none .c "" 0x0 0xffff .opcode,
    .insn "c.ebreak" none .c "" 0x9002 0xffff .opcode,
    .insn "c.jr" none .c "d" 0x8002 0xf07f .rdNonZero,
    .insn "c.jalr" none .c "d" 0x9002 0xf07f .rdNonZero,
    .insn "c.j" none .c "Ca" 0xa001 0xe003 .opcode,
    .insn "c.jal" (some .rv32) .c "Ca" 0x2001 0xe003 .opcode,
    .insn "c.beqz" none .c "Cs,Cp" 0xc001 0xe003 .opcode,
    .insn "c.bnez" none .c "Cs,Cp" 0xe001 0xe003 .opcode,
    .insn "c.lwsp" none .c "d,Cm(Cc)" 0x4002 0xe003 .rdNonZero,
    .insn "c.lw" none .c "Ct,Ck(Cs)" 0x4000 0xe003 .opcode,
    .insn "c.swsp" none .c "CV,CM(Cc)" 0xc002 0xe003 .opcode,
    .insn "c.sw" none .c "Ct,Ck(Cs)" 0xc000 0xe003 .opcode,
    .insn "c.nop" none .c "" 0x1 0xffff .opcode,
    .insn "c.mv" none .c "d,CV" 0x8002 0xf003 .cAdd,
    .insn "c.lui" none .c "d,Cu" 0x6001 0xe003 .cLui,
    .insn "c.li" none .c "d,Co" 0x4001 0xe003 .rdNonZero,
    .insn "c.addi4spn" none .c "Ct,Cc,CK" 0x0 0xe003 .cAddi4spn,
    .insn "c.addi16sp" none .c "Cc,CL" 0x6101 0xef83 .cAddi16sp,
    .insn "c.addi" none .c "d,Cj" 0x1 0xe003 .rdNonZero,
    .insn "c.add" none .c "d,CV" 0x9002 0xf003 .cAdd,
    .insn "c.sub" none .c "Cs,Ct" 0x8c01 0xfc63 .opcode,
    .insn "c.and" none .c "Cs,Ct" 0x8c61 0xfc63 .opcode,
    .insn "c.or" none .c "Cs,Ct" 0x8c41 0xfc63 .opcode,
    .insn "c.xor" none .c "Cs,Ct" 0x8c21 0xfc63 .opcode,
    .insn "c.slli" none .c "d,C>" 0x2 0xe003 .rdNonZero,
    .insn "c.srli" none .c "Cs,C>" 0x8001 0xec03 .opcode,
    .insn "c.srai" none .c "Cs,C>" 0x8401 0xec03 .opcode,
    .insn "c.andi" none .c "Cs,Co" 0x8801 0xec03 .opcode,
    .insn "c.addiw" (some .rv64) .c "d,Co" 0x2001 0xe003 .rdNonZero,
    .insn "c.addw" (some .rv64) .c "Cs,Ct" 0x9c21 0xfc63 .opcode,
    .insn "c.subw" (some .rv64) .c "Cs,Ct" 0x9c01 0xfc63 .opcode,
    .insn "c.ldsp" (some .rv64) .c "d,Cn(Cc)" 0x6002 0xe003 .rdNonZero,
    .insn "c.ld" (some .rv64) .c "Ct,Cl(Cs)" 0x6000 0xe003 .opcode,
    .insn "c.sdsp" (some .rv64) .c "CV,CN(Cc)" 0xe002 0xe003 .opcode,
    .insn "c.sd" (some .rv64) .c "Ct,Cl(Cs)" 0xe000 0xe003 .opcode,
    .insn "c.fldsp" none .dc "D,Cn(Cc)" 0x2002 0xe003 .opcode,
    .insn "c.fld" none .dc "CD,Cl(Cs)" 0x2000 0xe003 .opcode,
    .insn "c.fsdsp" none .dc "CT,CN(Cc)" 0xa002 0xe003 .opcode,
    .insn "c.fsd" none .dc "CD,Cl(Cs)" 0xa000 0xe003 .opcode,
    .insn "c.flwsp" (some .rv32) .fc "D,Cm(Cc)" 0x6002 0xe003 .opcode,
    .insn "c.flw" (some .rv32) .fc "CD,Ck(Cs)" 0x6000 0xe003 .opcode,
    .insn "c.fswsp" (some .rv32) .fc "CT,CM(Cc)" 0xe002 0xe003 .opcode,
    .insn "c.fsw" (some .rv32) .fc "CD,Ck(Cs)" 0xe000 0xe003 .opcode]

end RiscvAssembler.Table
