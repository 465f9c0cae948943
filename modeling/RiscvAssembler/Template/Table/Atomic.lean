import RiscvAssembler.Template.Basic

/-!
Templates of the atomic memory operations: eleven operations on two sizes, each in four orderings
that two bits of the word encode.
-/

namespace RiscvAssembler.Table

/-- The atomic operations other than the load that reserves, with the bits of each. -/
def atomicOperations : List (String × Word) :=
  [("sc", 0x18000000), ("amoadd", 0x00000000), ("amoswap", 0x08000000), ("amoand", 0x60000000),
    ("amoor", 0x40000000), ("amoxor", 0x20000000), ("amomax", 0xa0000000),
    ("amomaxu", 0xe0000000), ("amomin", 0x80000000), ("amominu", 0xc0000000)]

/-- The orderings: none, acquire, release, and both. -/
def orderings : List (String × Word) :=
  [("", 0x00000000), (".aq", 0x04000000), (".rl", 0x02000000), (".aqrl", 0x06000000)]

/-- The operations of one size in one ordering; `ending` and `bits` belong to both. -/
def atomicGroup (width : Option Xlen) (ending : String) (bits : Word) : List Row :=
  .insn ("lr" ++ ending) width .a "d,0(s)" (0x10000000 ||| bits) 0xfff0707f .opcode ::
    atomicOperations.map fun (operation, function) =>
      .insn (operation ++ ending) width .a "d,t,0(s)" (function ||| bits) 0xfe00707f .opcode

/-- The operations of one size. -/
def atomicSize (width : Option Xlen) (ending : String) (bits : Word) : List Row :=
  orderings.flatMap fun (ordering, order) => atomicGroup width (ending ++ ordering) (bits ||| order)

/-- The atomic memory operations. -/
def atomicRows : List Row :=
  atomicSize none ".w" 0x202f ++ atomicSize (some .rv64) ".d" 0x302f

end RiscvAssembler.Table
