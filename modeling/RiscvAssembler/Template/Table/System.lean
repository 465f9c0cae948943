import RiscvAssembler.Template.Basic

/-!
Templates of accesses to control and status registers, and of privileged instructions.
-/

namespace RiscvAssembler.Table

/-- Accesses to control and status registers. -/
def csrRows : List Row :=
  [.insn "csrr" none .i "d,E" 0x2073 0xff07f .opcode,
    .insn "csrw" none .i "E,s" 0x1073 0x7fff .opcode,
    .insn "csrw" none .i "E,Z" 0x5073 0x7fff .opcode,
    .insn "csrwi" none .i "E,Z" 0x5073 0x7fff .opcode,
    .insn "csrs" none .i "E,s" 0x2073 0x7fff .opcode,
    .insn "csrs" none .i "E,Z" 0x6073 0x7fff .opcode,
    .insn "csrsi" none .i "E,Z" 0x6073 0x7fff .opcode,
    .insn "csrc" none .i "E,s" 0x3073 0x7fff .opcode,
    .insn "csrc" none .i "E,Z" 0x7073 0x7fff .opcode,
    .insn "csrci" none .i "E,Z" 0x7073 0x7fff .opcode,
    .insn "csrrw" none .i "d,E,s" 0x1073 0x707f .opcode,
    .insn "csrrw" none .i "d,E,Z" 0x5073 0x707f .opcode,
    .insn "csrrwi" none .i "d,E,Z" 0x5073 0x707f .opcode,
    .insn "csrrs" none .i "d,E,s" 0x2073 0x707f .opcode,
    .insn "csrrs" none .i "d,E,Z" 0x6073 0x707f .opcode,
    .insn "csrrsi" none .i "d,E,Z" 0x6073 0x707f .opcode,
    .insn "csrrc" none .i "d,E,s" 0x3073 0x707f .opcode,
    .insn "csrrc" none .i "d,E,Z" 0x7073 0x707f .opcode,
    .insn "csrrci" none .i "d,E,Z" 0x7073 0x707f .opcode]

/-- Privileged instructions. -/
def privilegedRows : List Row :=
  [.insn "uret" none .i "" 0x200073 0xffffffff .opcode,
    .insn "sret" none .i "" 0x10200073 0xffffffff .opcode,
    .insn "hret" none .i "" 0x20200073 0xffffffff .opcode,
    .insn "mret" none .i "" 0x30200073 0xffffffff .opcode,
    .insn "dret" none .i "" 0x7b200073 0xffffffff .opcode,
    .insn "sfence.vm" none .i "" 0x10400073 0xffffffff .opcode,
    .insn "sfence.vm" none .i "s" 0x10400073 0xfff07fff .opcode,
    .insn "sfence.vma" none .i "" 0x12000073 0xffffffff .opcode,
    .insn "sfence.vma" none .i "s" 0x12000073 0xfff07fff .opcode,
    .insn "sfence.vma" none .i "s,t" 0x12000073 0xfe007fff .opcode,
    .insn "wfi" none .i "" 0x10500073 0xffffffff .opcode]

end RiscvAssembler.Table
