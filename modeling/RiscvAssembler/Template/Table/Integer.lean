import RiscvAssembler.Template.Basic

/-!
Templates of the base integer instructions and of the pseudo-instructions and compressed forms
that share their mnemonics. The rows of a mnemonic stand together and are tried in order, the
shorter forms mostly first.
-/

namespace RiscvAssembler.Table

/-- Traps, jumps, calls, constants and moves, and conjunctions. -/
def jumpRows : List Row :=
  [.insn "unimp" none .c "" 0x0 0xffff .opcode,
    .insn "unimp" none .i "" 0xc0001073 0xffffffff .opcode,
    .insn "ebreak" none .c "" 0x9002 0xffff .opcode,
    .insn "ebreak" none .i "" 0x100073 0xffffffff .opcode,
    .insn "sbreak" none .c "" 0x9002 0xffff .opcode,
    .insn "sbreak" none .i "" 0x100073 0xffffffff .opcode,
    .insn "ret" none .c "" 0x8082 0xffff .opcode,
    .insn "ret" none .i "" 0x8067 0xffffffff .opcode,
    .insn "jr" none .c "d" 0x8002 0xf07f .rdNonZero,
    .insn "jr" none .i "s" 0x67 0xfff07fff .opcode,
    .insn "jr" none .i "o(s)" 0x67 0x7fff .opcode,
    .insn "jr" none .i "s,j" 0x67 0x7fff .opcode,
    .insn "jalr" none .c "d" 0x9002 0xf07f .rdNonZero,
    .insn "jalr" none .i "s" 0xe7 0xfff07fff .opcode,
    .insn "jalr" none .i "o(s)" 0xe7 0x7fff .opcode,
    .insn "jalr" none .i "s,j" 0xe7 0x7fff .opcode,
    .insn "jalr" none .i "d,s" 0x67 0xfff0707f .opcode,
    .insn "jalr" none .i "d,o(s)" 0x67 0x707f .opcode,
    .insn "jalr" none .i "d,s,j" 0x67 0x707f .opcode,
    .insn "j" none .c "Ca" 0xa001 0xe003 .opcode,
    .insn "j" none .i "a" 0x6f 0xfff .opcode,
    .insn "jal" none .i "a" 0xef 0xfff .opcode,
    .insn "jal" none .i "d,a" 0x6f 0x7f .opcode,
    .insn "jal" (some .rv32) .c "Ca" 0x2001 0xe003 .opcode,
    .standsFor "call" none .i "d,c" 0x30000 .call,
    .standsFor "call" none .i "c" 0x8080 .call,
    .standsFor "tail" none .i "c" 0x30000 .call,
    .standsFor "jump" none .i "c,s" 0x0 .call,
    .insn "nop" none .c "" 0x1 0xffff .opcode,
    .insn "nop" none .i "" 0x13 0xffffffff .opcode,
    .insn "lui" none .c "d,Cu" 0x6001 0xe003 .cLui,
    .insn "lui" none .i "d,u" 0x37 0x7f .opcode,
    .insn "li" none .c "d,Cv" 0x6001 0xe003 .cLui,
    .insn "li" none .c "d,Co" 0x4001 0xe003 .rdNonZero,
    .insn "li" none .i "d,j" 0x13 0xff07f .opcode,
    .standsFor "li" none .i "d,I" 0x0 .li,
    .insn "mv" none .c "d,CV" 0x8002 0xf003 .cAdd,
    .insn "mv" none .i "d,s" 0x13 0xfff0707f .opcode,
    .insn "move" none .c "d,CV" 0x8002 0xf003 .cAdd,
    .insn "move" none .i "d,s" 0x13 0xfff0707f .opcode,
    .insn "zext.b" none .i "d,s" 0xff07013 0xfff0707f .opcode,
    .insn "and" none .c "Cs,Cw,Ct" 0x8c61 0xfc63 .opcode,
    .insn "and" none .c "Cs,Ct,Cw" 0x8c61 0xfc63 .opcode,
    .insn "and" none .c "Cs,Cw,Co" 0x8801 0xec03 .opcode,
    .insn "and" none .i "d,s,t" 0x7033 0xfe00707f .opcode,
    .insn "and" none .i "d,s,j" 0x7013 0x707f .opcode,
    .insn "andi" none .c "Cs,Cw,Co" 0x8801 0xec03 .opcode,
    .insn "andi" none .i "d,s,j" 0x7013 0x707f .opcode]

/-- Conditional branches. -/
def branchRows : List Row :=
  [.insn "beqz" none .c "Cs,Cp" 0xc001 0xe003 .opcode,
    .insn "beqz" none .i "s,p" 0x63 0x1f0707f .opcode,
    .insn "beq" none .c "Cs,Cz,Cp" 0xc001 0xe003 .opcode,
    .insn "beq" none .i "s,t,p" 0x63 0x707f .opcode,
    .insn "blez" none .i "t,p" 0x5063 0xff07f .opcode,
    .insn "bgez" none .i "s,p" 0x5063 0x1f0707f .opcode,
    .insn "bge" none .i "s,t,p" 0x5063 0x707f .opcode,
    .insn "bgeu" none .i "s,t,p" 0x7063 0x707f .opcode,
    .insn "ble" none .i "t,s,p" 0x5063 0x707f .opcode,
    .insn "bleu" none .i "t,s,p" 0x7063 0x707f .opcode,
    .insn "bltz" none .i "s,p" 0x4063 0x1f0707f .opcode,
    .insn "bgtz" none .i "t,p" 0x4063 0xff07f .opcode,
    .insn "blt" none .i "s,t,p" 0x4063 0x707f .opcode,
    .insn "bltu" none .i "s,t,p" 0x6063 0x707f .opcode,
    .insn "bgt" none .i "t,s,p" 0x4063 0x707f .opcode,
    .insn "bgtu" none .i "t,s,p" 0x6063 0x707f .opcode,
    .insn "bnez" none .c "Cs,Cp" 0xe001 0xe003 .opcode,
    .insn "bnez" none .i "s,p" 0x1063 0x1f0707f .opcode,
    .insn "bne" none .c "Cs,Cz,Cp" 0xe001 0xe003 .opcode,
    .insn "bne" none .i "s,t,p" 0x1063 0x707f .opcode]

/-- Additions, addresses and shifts. -/
def arithmeticRows : List Row :=
  [.insn "add" none .c "d,CU,CV" 0x9002 0xf003 .cAdd,
    .insn "add" none .c "d,CV,CU" 0x9002 0xf003 .cAdd,
    .insn "add" none .c "d,CU,Co" 0x1 0xe003 .rdNonZero,
    .insn "add" none .c "Ct,Cc,CK" 0x0 0xe003 .cAddi4spn,
    .insn "add" none .c "Cc,Cc,CL" 0x6101 0xef83 .cAddi16sp,
    .insn "add" none .c "d,Cz,CV" 0x8002 0xf003 .cAdd,
    .insn "add" none .i "d,s,t" 0x33 0xfe00707f .opcode,
    .insn "add" none .i "d,s,t,1" 0x33 0xfe00707f .opcode,
    .insn "add" none .i "d,s,j" 0x13 0x707f .opcode,
    .insn "addi" none .c "Ct,Cc,CK" 0x0 0xe003 .cAddi4spn,
    .insn "addi" none .c "d,CU,Cj" 0x1 0xe003 .rdNonZero,
    .insn "addi" none .c "d,CU,z" 0x1 0xf07f .cNop,
    .insn "addi" none .c "Cc,Cc,CL" 0x6101 0xef83 .cAddi16sp,
    .insn "addi" none .c "d,Cz,Co" 0x4001 0xe003 .rdNonZero,
    .insn "addi" none .c "d,CV,z" 0x8002 0xf003 .cAdd,
    .insn "addi" none .i "d,s,j" 0x13 0x707f .opcode,
    .standsFor "la" none .i "d,B" 0x0 .la,
    .standsFor "lla" none .i "d,B" 0x0 .lla,
    .standsFor "la.tls.gd" none .i "d,A" 0x0 .laTlsGd,
    .standsFor "la.tls.ie" none .i "d,A" 0x0 .laTlsIe,
    .insn "neg" none .i "d,t" 0x40000033 0xfe0ff07f .opcode,
    .insn "sll" none .c "d,CU,C>" 0x2 0xe003 .leftShift,
    .insn "sll" none .i "d,s,t" 0x1033 0xfe00707f .opcode,
    .insn "sll" none .i "d,s,>" 0x1013 0xfc00707f .opcode,
    .insn "slli" none .c "d,CU,C>" 0x2 0xe003 .leftShift,
    .insn "slli" none .i "d,s,>" 0x1013 0xfc00707f .opcode,
    .insn "srl" none .c "Cs,Cw,C>" 0x8001 0xec03 .rightShift,
    .insn "srl" none .i "d,s,t" 0x5033 0xfe00707f .opcode,
    .insn "srl" none .i "d,s,>" 0x5013 0xfc00707f .opcode,
    .insn "srli" none .c "Cs,Cw,C>" 0x8001 0xec03 .rightShift,
    .insn "srli" none .i "d,s,>" 0x5013 0xfc00707f .opcode,
    .insn "sra" none .c "Cs,Cw,C>" 0x8401 0xec03 .rightShift,
    .insn "sra" none .i "d,s,t" 0x40005033 0xfe00707f .opcode,
    .insn "sra" none .i "d,s,>" 0x40005013 0xfc00707f .opcode,
    .insn "srai" none .c "Cs,Cw,C>" 0x8401 0xec03 .rightShift,
    .insn "srai" none .i "d,s,>" 0x40005013 0xfc00707f .opcode,
    .insn "sub" none .c "Cs,Cw,Ct" 0x8c01 0xfc63 .opcode,
    .insn "sub" none .i "d,s,t" 0x40000033 0xfe00707f .opcode]

/-- Loads of up to four bytes. -/
def loadRows : List Row :=
  [.insn "lb" none .i "d,o(s)" 0x3 0x707f .opcode,
    .standsFor "lb" none .i "d,A" 0x0 .load,
    .insn "lbu" none .i "d,o(s)" 0x4003 0x707f .opcode,
    .standsFor "lbu" none .i "d,A" 0x0 .load,
    .insn "lh" none .i "d,o(s)" 0x1003 0x707f .opcode,
    .standsFor "lh" none .i "d,A" 0x0 .load,
    .insn "lhu" none .i "d,o(s)" 0x5003 0x707f .opcode,
    .standsFor "lhu" none .i "d,A" 0x0 .load,
    .insn "lw" none .c "d,Cm(Cc)" 0x4002 0xe003 .rdNonZero,
    .insn "lw" none .c "Ct,Ck(Cs)" 0x4000 0xe003 .opcode,
    .insn "lw" none .i "d,o(s)" 0x2003 0x707f .opcode,
    .standsFor "lw" none .i "d,A" 0x0 .load]

/-- Logic, comparisons, stores, fences and counters. -/
def logicRows : List Row :=
  [.insn "not" none .i "d,s" 0xfff04013 0xfff0707f .opcode,
    .insn "or" none .i "d,s,j" 0x6013 0x707f .opcode,
    .insn "or" none .c "Cs,Cw,Ct" 0x8c41 0xfc63 .opcode,
    .insn "or" none .c "Cs,Ct,Cw" 0x8c41 0xfc63 .opcode,
    .insn "or" none .i "d,s,t" 0x6033 0xfe00707f .opcode,
    .insn "ori" none .i "d,s,j" 0x6013 0x707f .opcode,
    .insn "auipc" none .i "d,u" 0x17 0x7f .opcode,
    .insn "seqz" none .i "d,s" 0x103013 0xfff0707f .opcode,
    .insn "snez" none .i "d,t" 0x3033 0xfe0ff07f .opcode,
    .insn "sltz" none .i "d,s" 0x2033 0xfff0707f .opcode,
    .insn "sgtz" none .i "d,t" 0x2033 0xfe0ff07f .opcode,
    .insn "slti" none .i "d,s,j" 0x2013 0x707f .opcode,
    .insn "slt" none .i "d,s,t" 0x2033 0xfe00707f .opcode,
    .insn "slt" none .i "d,s,j" 0x2013 0x707f .opcode,
    .insn "sltiu" none .i "d,s,j" 0x3013 0x707f .opcode,
    .insn "sltu" none .i "d,s,t" 0x3033 0xfe00707f .opcode,
    .insn "sltu" none .i "d,s,j" 0x3013 0x707f .opcode,
    .insn "sgt" none .i "d,t,s" 0x2033 0xfe00707f .opcode,
    .insn "sgtu" none .i "d,t,s" 0x3033 0xfe00707f .opcode,
    .insn "sb" none .i "t,q(s)" 0x23 0x707f .opcode,
    .standsFor "sb" none .i "t,A,s" 0x0 .store,
    .insn "sh" none .i "t,q(s)" 0x1023 0x707f .opcode,
    .standsFor "sh" none .i "t,A,s" 0x0 .store,
    .insn "sw" none .c "CV,CM(Cc)" 0xc002 0xe003 .opcode,
    .insn "sw" none .c "Ct,Ck(Cs)" 0xc000 0xe003 .opcode,
    .insn "sw" none .i "t,q(s)" 0x2023 0x707f .opcode,
    .standsFor "sw" none .i "t,A,s" 0x0 .store,
    .insn "fence" none .i "" 0xff0000f 0xffffffff .opcode,
    .insn "fence" none .i "P,Q" 0xf 0xf00fffff .opcode,
    .insn "fence.i" none .i "" 0x100f 0xffffffff .opcode,
    .insn "fence.tso" none .i "" 0x8330000f 0xffffffff .opcode,
    .insn "rdcycle" none .i "d" 0xc0002073 0xfffff07f .opcode,
    .insn "rdinstret" none .i "d" 0xc0202073 0xfffff07f .opcode,
    .insn "rdtime" none .i "d" 0xc0102073 0xfffff07f .opcode,
    .insn "rdcycleh" (some .rv32) .i "d" 0xc8002073 0xfffff07f .opcode,
    .insn "rdinstreth" (some .rv32) .i "d" 0xc8202073 0xfffff07f .opcode,
    .insn "rdtimeh" (some .rv32) .i "d" 0xc8102073 0xfffff07f .opcode,
    .insn "ecall" none .i "" 0x73 0xffffffff .opcode,
    .insn "scall" none .i "" 0x73 0xffffffff .opcode,
    .insn "xor" none .i "d,s,j" 0x4013 0x707f .opcode,
    .insn "xor" none .c "Cs,Cw,Ct" 0x8c21 0xfc63 .opcode,
    .insn "xor" none .c "Cs,Ct,Cw" 0x8c21 0xfc63 .opcode,
    .insn "xor" none .i "d,s,t" 0x4033 0xfe00707f .opcode,
    .insn "xori" none .i "d,s,j" 0x4013 0x707f .opcode]

/-- Instructions on 64-bit registers. -/
def wideRows : List Row :=
  [.insn "lwu" (some .rv64) .i "d,o(s)" 0x6003 0x707f .opcode,
    .standsFor "lwu" (some .rv64) .i "d,A" 0x0 .load,
    .insn "ld" (some .rv64) .c "d,Cn(Cc)" 0x6002 0xe003 .rdNonZero,
    .insn "ld" (some .rv64) .c "Ct,Cl(Cs)" 0x6000 0xe003 .opcode,
    .insn "ld" (some .rv64) .i "d,o(s)" 0x3003 0x707f .opcode,
    .standsFor "ld" (some .rv64) .i "d,A" 0x0 .load,
    .insn "sd" (some .rv64) .c "CV,CN(Cc)" 0xe002 0xe003 .opcode,
    .insn "sd" (some .rv64) .c "Ct,Cl(Cs)" 0xe000 0xe003 .opcode,
    .insn "sd" (some .rv64) .i "t,q(s)" 0x3023 0x707f .opcode,
    .standsFor "sd" (some .rv64) .i "t,A,s" 0x0 .store,
    .insn "sext.w" (some .rv64) .c "d,CU" 0x2001 0xf07f .rdNonZero,
    .insn "sext.w" (some .rv64) .i "d,s" 0x1b 0xfff0707f .opcode,
    .insn "addw" (some .rv64) .c "Cs,Cw,Ct" 0x9c21 0xfc63 .opcode,
    .insn "addw" (some .rv64) .c "Cs,Ct,Cw" 0x9c21 0xfc63 .opcode,
    .insn "addw" (some .rv64) .c "d,CU,Co" 0x2001 0xe003 .rdNonZero,
    .insn "addw" (some .rv64) .i "d,s,t" 0x3b 0xfe00707f .opcode,
    .insn "addw" (some .rv64) .i "d,s,j" 0x1b 0x707f .opcode,
    .insn "addiw" (some .rv64) .c "d,CU,Co" 0x2001 0xe003 .rdNonZero,
    .insn "addiw" (some .rv64) .i "d,s,j" 0x1b 0x707f .opcode,
    .insn "negw" (some .rv64) .i "d,t" 0x4000003b 0xfe0ff07f .opcode,
    .insn "sllw" (some .rv64) .i "d,s,t" 0x103b 0xfe00707f .opcode,
    .insn "sllw" (some .rv64) .i "d,s,<" 0x101b 0xfe00707f .opcode,
    .insn "slliw" (some .rv64) .i "d,s,<" 0x101b 0xfe00707f .opcode,
    .insn "srlw" (some .rv64) .i "d,s,t" 0x503b 0xfe00707f .opcode,
    .insn "srlw" (some .rv64) .i "d,s,<" 0x501b 0xfe00707f .opcode,
    .insn "srliw" (some .rv64) .i "d,s,<" 0x501b 0xfe00707f .opcode,
    .insn "sraw" (some .rv64) .i "d,s,t" 0x4000503b 0xfe00707f .opcode,
    .insn "sraw" (some .rv64) .i "d,s,<" 0x4000501b 0xfe00707f .opcode,
    .insn "sraiw" (some .rv64) .i "d,s,<" 0x4000501b 0xfe00707f .opcode,
    .insn "subw" (some .rv64) .c "Cs,Cw,Ct" 0x9c01 0xfc63 .opcode,
    .insn "subw" (some .rv64) .i "d,s,t" 0x4000003b 0xfe00707f .opcode]

/-- The base integer instructions. -/
def integerRows : List Row :=
  [jumpRows, branchRows, arithmeticRows, loadRows, logicRows, wideRows].flatten

end RiscvAssembler.Table
