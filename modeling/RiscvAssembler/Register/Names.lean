import RiscvAssembler.Text.Scan
import RiscvAssembler.Text.Numeral

/-!
Names of registers, control registers, major opcodes and keywords. Each lookup reads one name off
the front of the text and returns its number with the rest. Register names are read in any case,
all others exactly as listed.
-/

namespace RiscvAssembler

/-- A bank of thirty-two registers. -/
inductive Bank where
  | integer
  | float
deriving DecidableEq, Repr

namespace Register

/-- Calling-convention names of the integer registers, by number. -/
def integerNames : List String :=
  ["zero", "ra", "sp", "gp", "tp", "t0", "t1", "t2", "s0", "s1", "a0", "a1", "a2", "a3", "a4",
    "a5", "a6", "a7", "s2", "s3", "s4", "s5", "s6", "s7", "s8", "s9", "s10", "s11", "t3", "t4",
    "t5", "t6"]

/-- Calling-convention names of the floating-point registers, by number. -/
def floatNames : List String :=
  ["ft0", "ft1", "ft2", "ft3", "ft4", "ft5", "ft6", "ft7", "fs0", "fs1", "fa0", "fa1", "fa2",
    "fa3", "fa4", "fa5", "fa6", "fa7", "fs2", "fs3", "fs4", "fs5", "fs6", "fs7", "fs8", "fs9",
    "fs10", "fs11", "ft8", "ft9", "ft10", "ft11"]

/-- Names made of a letter and each number below thirty-two. -/
def numbered (letter : String) : List (String × Nat) :=
  (List.range 32).map fun (n : Nat) => (letter ++ Text.decimalText n, n)

/-- Every name of every integer register. -/
def integerTable : List (String × Nat) :=
  numbered "x" ++ integerNames.zipIdx ++ [("fp", 8)]

/-- Every name of every floating-point register. -/
def floatTable : List (String × Nat) :=
  numbered "f" ++ floatNames.zipIdx

/-- Every name of every register of a bank. -/
def names : Bank → List (String × Nat)
  | .integer => integerTable
  | .float => floatTable

end Register

namespace Csr

/-- Control and status registers that are listed one by one. -/
def listed : List (String × Nat) :=
  [("ustatus", 0x000), ("fflags", 0x001), ("frm", 0x002), ("fcsr", 0x003), ("uie", 0x004),
    ("utvec", 0x005), ("uscratch", 0x040), ("uepc", 0x041), ("ucause", 0x042), ("utval", 0x043),
    ("uip", 0x044), ("cycle", 0xc00), ("time", 0xc01), ("instret", 0xc02), ("cycleh", 0xc80),
    ("timeh", 0xc81), ("instreth", 0xc82),
    ("sstatus", 0x100), ("sedeleg", 0x102), ("sideleg", 0x103), ("sie", 0x104), ("stvec", 0x105),
    ("scounteren", 0x106), ("sscratch", 0x140), ("sepc", 0x141), ("scause", 0x142),
    ("stval", 0x143), ("sip", 0x144), ("satp", 0x180),
    ("mvendorid", 0xf11), ("marchid", 0xf12), ("mimpid", 0xf13), ("mhartid", 0xf14),
    ("mstatus", 0x300), ("misa", 0x301), ("medeleg", 0x302), ("mideleg", 0x303), ("mie", 0x304),
    ("mtvec", 0x305), ("mcounteren", 0x306), ("mstatush", 0x310), ("mcountinhibit", 0x320),
    ("mscratch", 0x340), ("mepc", 0x341), ("mcause", 0x342), ("mtval", 0x343), ("mip", 0x344),
    ("pmpcfg0", 0x3a0), ("pmpcfg1", 0x3a1), ("pmpcfg2", 0x3a2), ("pmpcfg3", 0x3a3),
    ("mcycle", 0xb00), ("minstret", 0xb02), ("mcycleh", 0xb80), ("minstreth", 0xb82),
    ("tselect", 0x7a0), ("tdata1", 0x7a1), ("tdata2", 0x7a2), ("tdata3", 0x7a3),
    ("dcsr", 0x7b0), ("dpc", 0x7b1), ("dscratch", 0x7b2)]

/-- The registers named by a stem, a number and an ending: number `n` stands at `start + n`. -/
def family (stem ending : String) (start : Nat) (numbers : List Nat) : List (String × Nat) :=
  numbers.map fun (n : Nat) => (stem ++ Text.decimalText n ++ ending, start + n)

/-- Every named control and status register. -/
def names : List (String × Nat) :=
  let counters := List.range' 3 29
  listed ++ family "pmpaddr" "" 0x3b0 (List.range 4) ++
    family "hpmcounter" "" 0xc00 counters ++ family "hpmcounter" "h" 0xc80 counters ++
    family "mhpmcounter" "" 0xb00 counters ++ family "mhpmcounter" "h" 0xb80 counters ++
    family "mhpmevent" "" 0x320 counters

end Csr

/-- Names of the major opcodes, for instructions given field by field. -/
def majorOpcodes : List (String × Nat) :=
  [("C0", 0x0), ("C1", 0x1), ("C2", 0x2), ("LOAD", 0x03), ("LOAD_FP", 0x07), ("CUSTOM_0", 0x0b),
    ("MISC_MEM", 0x0f), ("OP_IMM", 0x13), ("AUIPC", 0x17), ("OP_IMM_32", 0x1b), ("STORE", 0x23),
    ("STORE_FP", 0x27), ("CUSTOM_1", 0x2b), ("AMO", 0x2f), ("OP", 0x33), ("LUI", 0x37),
    ("OP_32", 0x3b), ("MADD", 0x43), ("MSUB", 0x47), ("NMSUB", 0x4b), ("NMADD", 0x4f),
    ("OP_FP", 0x53), ("CUSTOM_2", 0x5b), ("BRANCH", 0x63), ("JALR", 0x67), ("JAL", 0x6f),
    ("SYSTEM", 0x73), ("CUSTOM_3", 0x7b)]

/-- Rounding modes. -/
def roundingModes : List (String × Nat) :=
  [("rne", 0), ("rtz", 1), ("rdn", 2), ("rup", 3), ("rmm", 4), ("dyn", 7)]

/-- Sets of accesses that a fence orders: any of `i`, `o`, `r` and `w`, in this order. -/
def fenceSets : List (String × Nat) :=
  [("w", 1), ("r", 2), ("rw", 3), ("o", 4), ("ow", 5), ("or", 6), ("orw", 7), ("i", 8), ("iw", 9),
    ("ir", 10), ("irw", 11), ("io", 12), ("iow", 13), ("ior", 14), ("iorw", 15)]

/-! ### Lookups -/

/-- Reads a name off the front of the text and looks it up. -/
def lookupName (isNameChar : Char → Bool) (table : List (String × Nat)) (s : List Char) :
    Option (Nat × List Char) :=
  (table.lookup (String.ofList (s.takeWhile isNameChar))).map fun n =>
    (n, s.dropWhile isNameChar)

/-- Reads a name in any case off the front of the text and looks it up. -/
def lookupAnyCase (table : List (String × Nat)) (s : List Char) : Option (Nat × List Char) :=
  (table.lookup (String.ofList ((s.takeWhile Text.isWordChar).map Char.toLower))).map fun n =>
    (n, s.dropWhile Text.isWordChar)

/-- Characters of a keyword: all but a comma, a closing parenthesis and white space. -/
def isKeywordChar (c : Char) : Bool :=
  c != ',' && c != ')' && !Text.isAsciiSpace c

/-- A register of a bank. With `reduced`, only sixteen integer registers exist. -/
def Register.lookup (bank : Bank) (reduced : Bool) (s : List Char) : Option (Nat × List Char) :=
  (lookupAnyCase (names bank) s).filter fun (n, _) => !(reduced && bank = .integer && 15 < n)

/-- A control and status register. -/
def Csr.lookup (s : List Char) : Option (Nat × List Char) :=
  lookupAnyCase names s

/-- A major opcode. -/
def majorOpcode? (s : List Char) : Option (Nat × List Char) :=
  lookupName Text.isWordChar majorOpcodes s

/-- A rounding mode. -/
def roundingMode? (s : List Char) : Option (Nat × List Char) :=
  lookupName isKeywordChar roundingModes s

/-- A set of accesses for a fence. -/
def fenceSet? (s : List Char) : Option (Nat × List Char) :=
  lookupName isKeywordChar fenceSets s

/-- The number of a register that all of the text names. -/
def Register.whole? (bank : Bank) (s : List Char) : Option Nat :=
  match Register.lookup bank false s with
  | some (n, []) => some n
  | _ => none

/-- Whether all of the text names a register of some bank. -/
def Register.isName (s : List Char) : Bool :=
  (whole? .integer s).isSome || (whole? .float s).isSome

/-- The number of a register in debugging information: integer registers first, then
floating-point registers, control and status registers from 4096 on. -/
def dwarfNumber? (s : List Char) : Option Nat :=
  match Register.whole? .integer s, Register.whole? .float s, Csr.lookup s with
  | some n, _, _ => some n
  | none, some n, _ => some (n + 32)
  | none, none, some (n, []) => some (n + 4096)
  | none, none, _ => none

end RiscvAssembler
