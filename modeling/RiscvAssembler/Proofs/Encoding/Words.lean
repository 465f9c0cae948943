import RiscvAssembler.Operand.Basic
import RiscvAssembler.Proofs.Machine.Decode
import RiscvAssembler.Proofs.Word.Immediate

/-!
What assembled words say. A word is a match word with registers inserted and an immediate added, and
decoding gives the instruction with just these: one statement for each format of 32 bits, and one for
each format of compressed words. Registers are the low five bits of what was inserted, short ones the
low three; an immediate that fits is all of its value.
-/

namespace RiscvAssembler

variable {x : Xlen}

/-- Whether an operation works on the low 32 bits of registers of 64 bits. -/
def Operation.isNarrow : Operation → Bool
  | .addw | .subw => true
  | .add | .sub | .and | .or | .xor => false

/-! ### Memory accesses -/

/-- Accesses that have a compressed form: the widths of registers share the words of some. -/
inductive IsShortAccess : Xlen → Bank → AccessSize → Prop
  | word (x : Xlen) : IsShortAccess x .integer .word
  | double : IsShortAccess .rv64 .integer .double
  | floatWord : IsShortAccess .rv32 .float .word
  | floatDouble (x : Xlen) : IsShortAccess x .float .double

@[simp] theorem AccessSize.restrict?_word : AccessSize.word.restrict? x = some .word := by
  cases x <;> rfl

@[simp] theorem AccessSize.restrict?_rv64 (size : AccessSize) :
    size.restrict? .rv64 = some size := rfl

/-- A load into a register of a bank. -/
def loadInstr : Bank → AccessSize → Reg → Reg → BitVec 12 → Instr
  | .integer => .load
  | .float => .floatLoad

/-- A store of a register of a bank. -/
def storeInstr : Bank → AccessSize → Reg → Reg → BitVec 12 → Instr
  | .integer => .store
  | .float => .floatStore

def loadWord : Bank → AccessSize → Word
  | .integer, .word => 0x2003
  | .integer, .double => 0x3003
  | .float, .word => 0x2007
  | .float, .double => 0x3007

def storeWord : Bank → AccessSize → Word
  | .integer, .word => 0x2023
  | .integer, .double => 0x3023
  | .float, .word => 0x2027
  | .float, .double => 0x3027

def shortLoadWord : Bank → AccessSize → Word
  | .integer, .word => 0x4000
  | .integer, .double => 0x6000
  | .float, .word => 0x6000
  | .float, .double => 0x2000

def shortStoreWord : Bank → AccessSize → Word
  | .integer, .word => 0xc000
  | .integer, .double => 0xe000
  | .float, .word => 0xe000
  | .float, .double => 0xa000

def stackLoadWord : Bank → AccessSize → Word
  | .integer, .word => 0x4002
  | .integer, .double => 0x6002
  | .float, .word => 0x6002
  | .float, .double => 0x2002

def stackStoreWord : Bank → AccessSize → Word
  | .integer, .word => 0xc002
  | .integer, .double => 0xe002
  | .float, .word => 0xe002
  | .float, .double => 0xa002

/-- The offset of an access through a short register. -/
def AccessSize.shortOffset : AccessSize → CompressedImm
  | .word => .lw
  | .double => .ld

/-- The offset of a load from the stack. -/
def AccessSize.stackLoadOffset : AccessSize → CompressedImm
  | .word => .lwsp
  | .double => .ldsp

/-- The offset of a store to the stack. -/
def AccessSize.stackStoreOffset : AccessSize → CompressedImm
  | .word => .swsp
  | .double => .sdsp

/-! ### Words of 32 bits -/

section Wide

variable (a b c : Word) (v : Int64)

/-- Operations on registers. -/
def operationWords : List (Word × Operation) :=
  [(0x33, .add), (0x40000033, .sub), (0x7033, .and), (0x6033, .or), (0x4033, .xor), (0x3b, .addw),
    (0x4000003b, .subw)]

theorem decode32_operation {m : Word} {o : Operation} (h : (m, o) ∈ operationWords)
    (hx : o.isNarrow = true → x = .rv64) :
    decode32 x ((Field.rs2.insert (Field.rs1.insert (Field.rd.insert m a) b) c).setWidth 32) =
      some (.op o (a.extractLsb' 0 5) (b.extractLsb' 0 5) (c.extractLsb' 0 5)) := by
  simp only [operationWords, List.mem_cons, List.not_mem_nil, or_false, Prod.mk.injEq] at h
  rcases h with ⟨rfl, rfl⟩ | ⟨rfl, rfl⟩ | ⟨rfl, rfl⟩ | ⟨rfl, rfl⟩ | ⟨rfl, rfl⟩ | ⟨rfl, rfl⟩ |
      ⟨rfl, rfl⟩ <;>
    simp (disch := decide) [decode32, Wide.opcode, decodeOp, decodeOpWord, Wide.funct7,
      Wide.funct3, Wide.rd, Wide.rs1, Wide.rs2, hx]

/-- Operations with a constant. -/
def immediateWords : List (Word × Operation) :=
  [(0x13, .add), (0x7013, .and), (0x1b, .addw)]

theorem decode32_immediate {m : Word} {o : Operation} (h : (m, o) ∈ immediateWords)
    (hx : o.isNarrow = true → x = .rv64) :
    decode32 x ((Field.rs1.insert (Field.rd.insert m a) b ||| Immediate.i.encode v).setWidth 32) =
      some (.opImm o (a.extractLsb' 0 5) (b.extractLsb' 0 5) (v.toBitVec.setWidth 12)) := by
  simp only [immediateWords, List.mem_cons, List.not_mem_nil, or_false, Prod.mk.injEq] at h
  rcases h with ⟨rfl, rfl⟩ | ⟨rfl, rfl⟩ | ⟨rfl, rfl⟩ <;>
    simp (disch := decide) [decode32, Wide.opcode, decodeOpImm, Wide.funct6, Wide.funct3, Wide.rd,
      Wide.rs1, Wide.imm, Immediate.encode, Immediate.i, BitVec.extractLsb'_or,
      BitVec.setWidth_eq_extractLsb', hx]

theorem decode32_move {m : Word} {o : Operation} (h : (m, o) ∈ immediateWords)
    (hx : o.isNarrow = true → x = .rv64) :
    decode32 x ((Field.rs1.insert (Field.rd.insert m a) b).setWidth 32) =
      some (.opImm o (a.extractLsb' 0 5) (b.extractLsb' 0 5) 0) := by
  simp only [immediateWords, List.mem_cons, List.not_mem_nil, or_false, Prod.mk.injEq] at h
  rcases h with ⟨rfl, rfl⟩ | ⟨rfl, rfl⟩ | ⟨rfl, rfl⟩ <;>
    simp (disch := decide) [decode32, Wide.opcode, decodeOpImm, Wide.funct6, Wide.funct3, Wide.rd,
      Wide.rs1, Wide.imm, hx]

theorem decode32_constant :
    decode32 x ((Field.rd.insert 0x13 a ||| Immediate.i.encode v).setWidth 32) =
      some (.opImm .add (a.extractLsb' 0 5) 0 (v.toBitVec.setWidth 12)) := by
  simp (disch := decide) [decode32, Wide.opcode, decodeOpImm, Wide.funct6, Wide.funct3, Wide.rd,
    Wide.rs1, Wide.imm, Immediate.encode, Immediate.i, BitVec.extractLsb'_or,
    BitVec.setWidth_eq_extractLsb']

theorem decode32_upper :
    decode32 x ((Field.rd.insert 0x37 a |||
        Immediate.u.encode (Int64.ofBitVec (v.toBitVec <<< 12))).setWidth 32) =
      some (.lui (a.extractLsb' 0 5) (v.toBitVec.setWidth 20)) := by
  have himm : (v.toBitVec <<< 12).extractLsb' 12 20 = v.toBitVec.setWidth 20 := by
    apply BitVec.eq_of_getLsbD_eq
    intro i hi
    simp [hi]
    omega
  simp (disch := decide) [decode32, Wide.opcode, Wide.rd, Immediate.encode, Immediate.u,
    BitVec.extractLsb'_or, himm]

/-- Shifts by a constant. -/
def shiftWords : List (Word × Shift) :=
  [(0x1013, .left), (0x5013, .right), (0x40005013, .rightArithmetic)]

theorem decode32_shift {m : Word} {s : Shift} (h : (m, s) ∈ shiftWords) {k : BitVec 6}
    (hk : c.extractLsb' 0 6 = k) (hlt : k.toNat < x.bits) :
    decode32 x ((Field.shamt.insert (Field.rs1.insert (Field.rd.insert m a) b) c).setWidth 32) =
      some (.shift s (a.extractLsb' 0 5) (b.extractLsb' 0 5) k) := by
  simp only [shiftWords, List.mem_cons, List.not_mem_nil, or_false, Prod.mk.injEq] at h
  rcases h with ⟨rfl, rfl⟩ | ⟨rfl, rfl⟩ | ⟨rfl, rfl⟩ <;>
    simp (disch := decide) [decode32, Wide.opcode, decodeOpImm, decodeOpImm.shiftBy,
      Wide.funct6, Wide.funct3, Wide.rd, Wide.rs1, Wide.shamt, hk, hlt]

theorem decode32_load {bank : Bank} {size : AccessSize} (h : IsShortAccess x bank size) :
    decode32 x
        ((Field.rs1.insert (Field.rd.insert (loadWord bank size) a ||| Immediate.i.encode v)
          b).setWidth 32) =
      some (loadInstr bank size (a.extractLsb' 0 5) (b.extractLsb' 0 5)
        (v.toBitVec.setWidth 12)) := by
  cases h <;>
    simp (disch := decide) [decode32, loadWord, loadInstr, Wide.opcode, AccessSize.ofFunct3?,
      Wide.funct3, Wide.rd, Wide.rs1, Wide.imm, Immediate.encode, Immediate.i,
      BitVec.extractLsb'_or, BitVec.setWidth_eq_extractLsb']

theorem Wide.storeOffset_encode {m : Word} (hm : m.extractLsb' 7 5 = 0 ∧ m.extractLsb' 25 7 = 0) :
    Wide.storeOffset
        ((Field.rs1.insert (Field.rs2.insert m a ||| Immediate.s.encode v) b).setWidth 32) =
      v.toBitVec.setWidth 12 := by
  have hslices : Wide.storeOffset
      ((Field.rs1.insert (Field.rs2.insert m a ||| Immediate.s.encode v) b).setWidth 32) =
        v.toBitVec.extractLsb' 5 7 ++ v.toBitVec.extractLsb' 0 5 := by
    simp (disch := decide) [Wide.storeOffset, Immediate.encode, Immediate.s,
      BitVec.extractLsb'_or, hm]
  rw [hslices, extractLsb'_append_of_eq _ (by rfl), BitVec.setWidth_eq_extractLsb' (by decide)]

theorem decode32_store {bank : Bank} {size : AccessSize} (h : IsShortAccess x bank size) :
    decode32 x
        ((Field.rs1.insert (Field.rs2.insert (storeWord bank size) a ||| Immediate.s.encode v)
          b).setWidth 32) =
      some (storeInstr bank size (a.extractLsb' 0 5) (b.extractLsb' 0 5)
        (v.toBitVec.setWidth 12)) := by
  cases h <;>
    simp (disch := decide) [decode32, storeWord, storeInstr, Wide.opcode, AccessSize.ofFunct3?,
      Wide.funct3, Wide.rs2, Wide.rs1, Wide.storeOffset_encode,
      Immediate.extractLsb'_or_encode_of_apart]

/-- Jumps through a register, by the register that takes the address of the next instruction. -/
def jumpWords : List (Word × Reg) :=
  [(0x67, 0), (0xe7, 1)]

theorem decode32_jump {m : Word} {rd : Reg} (h : (m, rd) ∈ jumpWords) :
    decode32 x ((Field.rs1.insert m a).setWidth 32) = some (.jalr rd (a.extractLsb' 0 5) 0) := by
  simp only [jumpWords, List.mem_cons, List.not_mem_nil, or_false, Prod.mk.injEq] at h
  rcases h with ⟨rfl, rfl⟩ | ⟨rfl, rfl⟩ <;>
    simp (disch := decide) [decode32, Wide.opcode, Wide.funct3, Wide.rd, Wide.rs1, Wide.imm]

/-- Conditional branches. -/
def branchWords : List (Word × Condition) :=
  [(0x63, .eq), (0x1063, .ne)]

theorem decode32_branch {m : Word} {o : Condition} (h : (m, o) ∈ branchWords) :
    ∃ offset, decode32 x ((Field.rs2.insert (Field.rs1.insert m a) b).setWidth 32) =
      some (.branch o (a.extractLsb' 0 5) (b.extractLsb' 0 5) offset) := by
  simp only [branchWords, List.mem_cons, List.not_mem_nil, or_false, Prod.mk.injEq] at h
  rcases h with ⟨rfl, rfl⟩ | ⟨rfl, rfl⟩ <;>
    simp (disch := decide) [decode32, Wide.opcode, Wide.funct3, Condition.ofFunct3?, Wide.rs1,
      Wide.rs2]

theorem decode32_branchZero {m : Word} {o : Condition} (h : (m, o) ∈ branchWords) :
    ∃ offset, decode32 x ((Field.rs1.insert m a).setWidth 32) =
      some (.branch o (a.extractLsb' 0 5) 0 offset) := by
  simp only [branchWords, List.mem_cons, List.not_mem_nil, or_false, Prod.mk.injEq] at h
  rcases h with ⟨rfl, rfl⟩ | ⟨rfl, rfl⟩ <;>
    simp (disch := decide) [decode32, Wide.opcode, Wide.funct3, Condition.ofFunct3?, Wide.rs1,
      Wide.rs2]

end Wide

/-! ### Immediates of compressed words

The runs of each layout, put together, give back a value that fits. -/

namespace Immediate

variable {v : Int64}

theorem setWidth_append_zero_of_fits {l : Immediate} (hl : l.Consistent ∧ l.signed = false)
    {k n : Nat} (hlow : k ≤ l.width ∧ l.carried.extractLsb' 0 k = 0)
    (hhigh : l.carried >>> (n + k) = 0) (h : l.fits v = true) (m : Nat) :
    (v.toBitVec.extractLsb' k n ++ 0#k).setWidth m = v.toBitVec.setWidth m := by
  rw [extractLsb'_append_zero (extractLsb'_of_fits hl.1 hlow.1 hlow.2 h)]
  exact setWidth_of_fits hl.1 hl.2 hhigh h m

theorem join_ci (w : Word) : w.extractLsb' 5 1 ++ w.extractLsb' 0 5 = w.extractLsb' 0 6 := by
  rw [extractLsb'_append_of_eq _ (by rfl)]

theorem signExtend_ci (h : ci.fits v = true) :
    (v.toBitVec.extractLsb' 0 6).signExtend 12 = v.toBitVec.setWidth 12 :=
  signExtend_of_fits rfl (by decide) h (by decide)

theorem join_cLw (h : cLw.fits v = true) :
    (v.toBitVec.extractLsb' 6 1 ++ v.toBitVec.extractLsb' 3 3 ++ v.toBitVec.extractLsb' 2 1 ++
      0#2).setWidth 12 = v.toBitVec.setWidth 12 := by
  rw [extractLsb'_append_of_eq _ (by rfl), extractLsb'_append_of_eq _ (by rfl)]
  exact setWidth_append_zero_of_fits (by decide) (by decide) (by decide) h 12

theorem join_cLd (h : cLd.fits v = true) :
    (v.toBitVec.extractLsb' 6 2 ++ v.toBitVec.extractLsb' 3 3 ++ 0#3).setWidth 12 =
      v.toBitVec.setWidth 12 := by
  rw [extractLsb'_append_of_eq _ (by rfl)]
  exact setWidth_append_zero_of_fits (by decide) (by decide) (by decide) h 12

theorem join_cLwsp (h : cLwsp.fits v = true) :
    (v.toBitVec.extractLsb' 6 2 ++ v.toBitVec.extractLsb' 5 1 ++ v.toBitVec.extractLsb' 2 3 ++
      0#2).setWidth 12 = v.toBitVec.setWidth 12 := by
  rw [extractLsb'_append_of_eq _ (by rfl), extractLsb'_append_of_eq _ (by rfl)]
  exact setWidth_append_zero_of_fits (by decide) (by decide) (by decide) h 12

theorem join_cLdsp (h : cLdsp.fits v = true) :
    (v.toBitVec.extractLsb' 6 3 ++ v.toBitVec.extractLsb' 5 1 ++ v.toBitVec.extractLsb' 3 2 ++
      0#3).setWidth 12 = v.toBitVec.setWidth 12 := by
  rw [extractLsb'_append_of_eq _ (by rfl), extractLsb'_append_of_eq _ (by rfl)]
  exact setWidth_append_zero_of_fits (by decide) (by decide) (by decide) h 12

theorem join_cSwsp (h : cSwsp.fits v = true) :
    (v.toBitVec.extractLsb' 6 2 ++ v.toBitVec.extractLsb' 2 4 ++ 0#2).setWidth 12 =
      v.toBitVec.setWidth 12 := by
  rw [extractLsb'_append_of_eq _ (by rfl)]
  exact setWidth_append_zero_of_fits (by decide) (by decide) (by decide) h 12

theorem join_cSdsp (h : cSdsp.fits v = true) :
    (v.toBitVec.extractLsb' 6 3 ++ v.toBitVec.extractLsb' 3 3 ++ 0#3).setWidth 12 =
      v.toBitVec.setWidth 12 := by
  rw [extractLsb'_append_of_eq _ (by rfl)]
  exact setWidth_append_zero_of_fits (by decide) (by decide) (by decide) h 12

/-- A value that fits an unsigned layout is zero only if its low bits are. -/
theorem extractLsb'_ne_zero_of_fits {l : Immediate} (hl : l.Consistent ∧ l.signed = false)
    {n : Nat} (hhigh : l.carried >>> n = 0) (h : l.fits v = true) (hv : v ≠ 0) :
    v.toBitVec.extractLsb' 0 n ≠ 0#n := by
  intro hzero
  have hall := setWidth_of_fits hl.1 hl.2 hhigh h 64
  rw [hzero, BitVec.setWidth_eq, BitVec.setWidth_zero] at hall
  exact hv (Int64.toBitVec_inj.1 hall.symm)

/-- A value that fits a signed layout is zero only if its low bits are. -/
theorem extractLsb'_width_ne_zero_of_fits {l : Immediate} (hl : l.signed = true ∧ l.width ≤ 64)
    (h : l.fits v = true) (hv : v ≠ 0) : v.toBitVec.extractLsb' 0 l.width ≠ 0#l.width := by
  intro hzero
  have hall := signExtend_of_fits hl.1 hl.2 h (Nat.le_refl 64)
  rw [hzero, BitVec.setWidth_eq, BitVec.signExtend, BitVec.toInt_zero] at hall
  exact hv (Int64.toBitVec_inj.1 hall.symm)

theorem join_cAddi4spn (h : cAddi4spn.fits v = true) :
    v.toBitVec.extractLsb' 6 4 ++ v.toBitVec.extractLsb' 4 2 ++ v.toBitVec.extractLsb' 3 1 ++
      v.toBitVec.extractLsb' 2 1 ++ 0#2 = v.toBitVec.extractLsb' 0 10 := by
  rw [extractLsb'_append_of_eq _ (by rfl), extractLsb'_append_of_eq _ (by rfl),
    extractLsb'_append_of_eq _ (by rfl)]
  exact extractLsb'_append_zero (extractLsb'_of_fits (by decide) (by decide) (by decide) h)

theorem join_cAddi16sp (h : cAddi16sp.fits v = true) :
    v.toBitVec.extractLsb' 9 1 ++ v.toBitVec.extractLsb' 7 2 ++ v.toBitVec.extractLsb' 6 1 ++
      v.toBitVec.extractLsb' 5 1 ++ v.toBitVec.extractLsb' 4 1 ++ 0#4 =
        v.toBitVec.extractLsb' 0 10 := by
  rw [extractLsb'_append_of_eq _ (by rfl), extractLsb'_append_of_eq _ (by rfl),
    extractLsb'_append_of_eq _ (by rfl), extractLsb'_append_of_eq _ (by rfl)]
  exact extractLsb'_append_zero (extractLsb'_of_fits (by decide) (by decide) (by decide) h)

end Immediate

/-! ### Compressed words -/

section Short

variable (a b : Word) (v : Int64)

/-- Jumps through a register, by the register that takes the address of the next instruction. -/
def shortJumpWords : List (Word × Reg) :=
  [(0x8002, 0), (0x9002, 1)]

theorem decode16_jump {m : Word} {rd : Reg} (h : (m, rd) ∈ shortJumpWords)
    (ha : a.extractLsb' 0 5 ≠ 0#5) :
    decode16 x ((Field.rd.insert m a).setWidth 16) = some (.jalr rd (a.extractLsb' 0 5) 0) := by
  simp only [shortJumpWords, List.mem_cons, List.not_mem_nil, or_false, Prod.mk.injEq] at h
  rcases h with ⟨rfl, rfl⟩ | ⟨rfl, rfl⟩ <;>
    simp (disch := decide) [decode16, Short.quadrant, Short.funct3, decodeShortRegister,
      Short.rd, Short.rs2, ha]

/-- Conditional branches on a short register. -/
def shortBranchWords : List (Word × Condition) :=
  [(0xc001, .eq), (0xe001, .ne)]

theorem decode16_branch {m : Word} {o : Condition} (h : (m, o) ∈ shortBranchWords) :
    ∃ offset, decode16 x ((Field.shortRs1.insert m a).setWidth 16) =
      some (.branch o (Short.reg (a.extractLsb' 0 3)) 0 offset) := by
  simp only [shortBranchWords, List.mem_cons, List.not_mem_nil, or_false, Prod.mk.injEq] at h
  rcases h with ⟨rfl, rfl⟩ | ⟨rfl, rfl⟩ <;>
    simp (disch := decide) [decode16, Short.quadrant, Short.funct3, Short.upperReg]

theorem decode16_move (hb : b.extractLsb' 0 5 ≠ 0#5) :
    decode16 x ((Field.compressedRs2.insert (Field.rd.insert 0x8002 a) b).setWidth 16) =
      some (.op .add (a.extractLsb' 0 5) 0 (b.extractLsb' 0 5)) := by
  simp (disch := decide) [decode16, Short.quadrant, Short.funct3, decodeShortRegister,
    Short.rd, Short.rs2, hb]

theorem decode16_add (hb : b.extractLsb' 0 5 ≠ 0#5) :
    decode16 x ((Field.compressedRs2.insert (Field.rd.insert 0x9002 a) b).setWidth 16) =
      some (.op .add (a.extractLsb' 0 5) (a.extractLsb' 0 5) (b.extractLsb' 0 5)) := by
  simp (disch := decide) [decode16, Short.quadrant, Short.funct3, decodeShortRegister,
    Short.rd, Short.rs2, hb]

/-- Operations on short registers. -/
def shortOperationWords : List (Word × Operation) :=
  [(0x8c61, .and), (0x8c01, .sub), (0x8c41, .or), (0x8c21, .xor), (0x9c21, .addw), (0x9c01, .subw)]

theorem decode16_operation {m : Word} {o : Operation} (h : (m, o) ∈ shortOperationWords)
    (hx : o.isNarrow = true → x = .rv64) :
    decode16 x ((Field.shortRs2.insert (Field.shortRs1.insert m a) b).setWidth 16) =
      some (.op o (Short.reg (a.extractLsb' 0 3)) (Short.reg (a.extractLsb' 0 3))
        (Short.reg (b.extractLsb' 0 3))) := by
  simp only [shortOperationWords, List.mem_cons, List.not_mem_nil, or_false, Prod.mk.injEq] at h
  rcases h with ⟨rfl, rfl⟩ | ⟨rfl, rfl⟩ | ⟨rfl, rfl⟩ | ⟨rfl, rfl⟩ | ⟨rfl, rfl⟩ | ⟨rfl, rfl⟩ <;>
    simp (disch := decide) [decode16, Short.quadrant, Short.funct3, decodeShortArithmetic,
      Short.upperReg, Short.lowerReg, hx]

/-- Additions of a constant to a register. -/
def incrementWords : List (Word × Operation) :=
  [(0x1, .add), (0x2001, .addw)]

theorem decode16_increment {m : Word} {o : Operation} (h : (m, o) ∈ incrementWords)
    (hx : o.isNarrow = true → x = .rv64) (hv : Immediate.ci.fits v = true)
    (ha : o.isNarrow = true → a.extractLsb' 0 5 ≠ 0#5) :
    decode16 x ((Field.rd.insert m a ||| Immediate.ci.encode v).setWidth 16) =
      some (.opImm o (a.extractLsb' 0 5) (a.extractLsb' 0 5) (v.toBitVec.setWidth 12)) := by
  simp only [incrementWords, List.mem_cons, List.not_mem_nil, or_false, Prod.mk.injEq] at h
  rcases h with ⟨rfl, rfl⟩ | ⟨rfl, rfl⟩ <;>
    simp (disch := decide) [decode16, Short.quadrant, Short.funct3, Short.rd, Short.imm,
      Immediate.encode, Immediate.ci, BitVec.extractLsb'_or, Immediate.join_ci,
      Immediate.signExtend_ci hv, hx, ha]

theorem decode16_keep {m : Word} {o : Operation} (h : (m, o) ∈ incrementWords)
    (hx : o.isNarrow = true → x = .rv64) (ha : o.isNarrow = true → a.extractLsb' 0 5 ≠ 0#5) :
    decode16 x ((Field.rd.insert m a).setWidth 16) =
      some (.opImm o (a.extractLsb' 0 5) (a.extractLsb' 0 5) 0) := by
  simp only [incrementWords, List.mem_cons, List.not_mem_nil, or_false, Prod.mk.injEq] at h
  rcases h with ⟨rfl, rfl⟩ | ⟨rfl, rfl⟩ <;>
    simp (disch := decide) [decode16, Short.quadrant, Short.funct3, Short.rd, Short.imm, hx, ha]

theorem decode16_constant (h : Immediate.ci.fits v = true) :
    decode16 x ((Field.rd.insert 0x4001 a ||| Immediate.ci.encode v).setWidth 16) =
      some (.opImm .add (a.extractLsb' 0 5) 0 (v.toBitVec.setWidth 12)) := by
  simp (disch := decide) [decode16, Short.quadrant, Short.funct3, Short.rd, Short.imm,
    Immediate.encode, Immediate.ci, BitVec.extractLsb'_or, Immediate.join_ci,
    Immediate.signExtend_ci h]

theorem decode16_upper (ha : a.extractLsb' 0 5 ≠ 2#5) (hv : v.toBitVec.extractLsb' 0 6 ≠ 0#6) :
    decode16 x ((Field.rd.insert 0x6001 a ||| Immediate.ci.encode v).setWidth 16) =
      some (.lui (a.extractLsb' 0 5) ((v.toBitVec.extractLsb' 0 6).signExtend 20)) := by
  simp (disch := decide) [decode16, Short.quadrant, Short.funct3, Short.rd, Short.imm,
    Immediate.encode, Immediate.ci, BitVec.extractLsb'_or, Immediate.join_ci, ha, hv]

theorem decode16_and (h : Immediate.ci.fits v = true) :
    decode16 x ((Field.shortRs1.insert 0x8801 a ||| Immediate.ci.encode v).setWidth 16) =
      some (.opImm .and (Short.reg (a.extractLsb' 0 3)) (Short.reg (a.extractLsb' 0 3))
        (v.toBitVec.setWidth 12)) := by
  simp (disch := decide) [decode16, Short.quadrant, Short.funct3, decodeShortArithmetic,
    Short.upperReg, Short.imm, Immediate.encode, Immediate.ci, BitVec.extractLsb'_or,
    Immediate.join_ci, Immediate.signExtend_ci h]

theorem decode16_shiftLeft {k : BitVec 6} (hk : v.toBitVec.extractLsb' 0 6 = k)
    (hlt : k.toNat < x.bits) :
    decode16 x ((Field.rd.insert 0x2 a ||| Immediate.ci.encode v).setWidth 16) =
      some (.shift .left (a.extractLsb' 0 5) (a.extractLsb' 0 5) k) := by
  simp (disch := decide) [decode16, Short.quadrant, Short.funct3, decodeShortShift, Short.rd,
    Short.imm, Immediate.encode, Immediate.ci, BitVec.extractLsb'_or, Immediate.join_ci, hk, hlt]

/-- Shifts of a short register to the right. -/
def shortShiftWords : List (Word × Shift) :=
  [(0x8001, .right), (0x8401, .rightArithmetic)]

theorem decode16_shiftRight {m : Word} {s : Shift} (h : (m, s) ∈ shortShiftWords) {k : BitVec 6}
    (hk : v.toBitVec.extractLsb' 0 6 = k) (hlt : k.toNat < x.bits) :
    decode16 x ((Field.shortRs1.insert m a ||| Immediate.ci.encode v).setWidth 16) =
      some (.shift s (Short.reg (a.extractLsb' 0 3)) (Short.reg (a.extractLsb' 0 3)) k) := by
  simp only [shortShiftWords, List.mem_cons, List.not_mem_nil, or_false, Prod.mk.injEq] at h
  rcases h with ⟨rfl, rfl⟩ | ⟨rfl, rfl⟩ <;>
    simp (disch := decide) [decode16, Short.quadrant, Short.funct3, decodeShortArithmetic,
      decodeShortShift, Short.upperReg, Short.imm, Immediate.encode, Immediate.ci,
      BitVec.extractLsb'_or, Immediate.join_ci, hk, hlt]

theorem decode16_stackAddress (h : Immediate.cAddi4spn.fits v = true) (hv : v ≠ 0) :
    decode16 x ((Field.shortRs2.insert 0x0 a ||| Immediate.cAddi4spn.encode v).setWidth 16) =
      some (.opImm .add (Short.reg (a.extractLsb' 0 3)) 2 (v.toBitVec.setWidth 12)) := by
  have hne := Immediate.extractLsb'_ne_zero_of_fits (n := 10) (by decide) (by decide) h hv
  have himm : (v.toBitVec.extractLsb' 0 10).setWidth 12 = v.toBitVec.setWidth 12 :=
    Immediate.setWidth_of_fits (by decide) rfl (by decide) h 12
  simp (disch := decide) [decode16, Short.quadrant, Short.funct3, Short.lowerReg,
    Short.stackAddress, Immediate.encode, Immediate.cAddi4spn, BitVec.extractLsb'_or,
    Immediate.join_cAddi4spn h, hne, himm]

theorem decode16_stackAdjustment (h : Immediate.cAddi16sp.fits v = true) (hv : v ≠ 0) :
    decode16 x (((0x6101 : Word) ||| Immediate.cAddi16sp.encode v).setWidth 16) =
      some (.opImm .add 2 2 (v.toBitVec.setWidth 12)) := by
  have hne : v.toBitVec.extractLsb' 0 10 ≠ 0#10 :=
    Immediate.extractLsb'_width_ne_zero_of_fits ⟨rfl, by decide⟩ h hv
  have himm : (v.toBitVec.extractLsb' 0 10).signExtend 12 = v.toBitVec.setWidth 12 :=
    Immediate.signExtend_of_fits rfl (by decide) h (by decide)
  simp (disch := decide) [decode16, Short.quadrant, Short.funct3, Short.rd,
    Short.stackAdjustment, Immediate.encode, Immediate.cAddi16sp, BitVec.extractLsb'_or,
    Immediate.join_cAddi16sp h, hne, himm]

/-! Accesses of memory. -/

theorem decode16_load {bank : Bank} {size : AccessSize} (haccess : IsShortAccess x bank size)
    (h : size.shortOffset.immediate.fits v = true) :
    decode16 x
        ((Field.shortRs1.insert ((Operand.compressedImm size.shortOffset).store
          (Field.shortRs2.insert (shortLoadWord bank size) a) v) b).setWidth 16) =
      some (loadInstr bank size (Short.reg (a.extractLsb' 0 3)) (Short.reg (b.extractLsb' 0 3))
        (v.toBitVec.setWidth 12)) := by
  cases haccess with
  | word | floatWord =>
    simp (disch := decide) [decode16, shortLoadWord, loadInstr, AccessSize.shortOffset,
      Operand.store, CompressedImm.immediate, CompressedImm.stored, Short.quadrant, Short.funct3, Short.lowerReg, Short.upperReg,
      Short.wordOffset, Immediate.encode, Immediate.cLw, BitVec.extractLsb'_or,
      Immediate.join_cLw h]
  | double | floatDouble =>
    simp (disch := decide) [decode16, shortLoadWord, loadInstr, AccessSize.shortOffset,
      Operand.store, CompressedImm.immediate, CompressedImm.stored, Short.quadrant, Short.funct3, Short.lowerReg, Short.upperReg,
      Short.doubleOffset, Immediate.encode, Immediate.cLd, BitVec.extractLsb'_or,
      Immediate.join_cLd h]

theorem decode16_store {bank : Bank} {size : AccessSize} (haccess : IsShortAccess x bank size)
    (h : size.shortOffset.immediate.fits v = true) :
    decode16 x
        ((Field.shortRs1.insert ((Operand.compressedImm size.shortOffset).store
          (Field.shortRs2.insert (shortStoreWord bank size) a) v) b).setWidth 16) =
      some (storeInstr bank size (Short.reg (a.extractLsb' 0 3)) (Short.reg (b.extractLsb' 0 3))
        (v.toBitVec.setWidth 12)) := by
  cases haccess with
  | word | floatWord =>
    simp (disch := decide) [decode16, shortStoreWord, storeInstr, AccessSize.shortOffset,
      Operand.store, CompressedImm.immediate, CompressedImm.stored, Short.quadrant, Short.funct3, Short.lowerReg, Short.upperReg,
      Short.wordOffset, Immediate.encode, Immediate.cLw, BitVec.extractLsb'_or,
      Immediate.join_cLw h]
  | double | floatDouble =>
    simp (disch := decide) [decode16, shortStoreWord, storeInstr, AccessSize.shortOffset,
      Operand.store, CompressedImm.immediate, CompressedImm.stored, Short.quadrant, Short.funct3, Short.lowerReg, Short.upperReg,
      Short.doubleOffset, Immediate.encode, Immediate.cLd, BitVec.extractLsb'_or,
      Immediate.join_cLd h]

theorem decode16_stackLoad {bank : Bank} {size : AccessSize} (haccess : IsShortAccess x bank size)
    (h : size.stackLoadOffset.immediate.fits v = true)
    (ha : bank = .integer → a.extractLsb' 0 5 ≠ 0#5) :
    decode16 x
        (((Operand.compressedImm size.stackLoadOffset).store
          (Field.rd.insert (stackLoadWord bank size) a) v).setWidth 16) =
      some (loadInstr bank size (a.extractLsb' 0 5) 2 (v.toBitVec.setWidth 12)) := by
  cases haccess with
  | word | floatWord =>
    simp (disch := decide) [decode16, stackLoadWord, loadInstr, AccessSize.stackLoadOffset,
      Operand.store, CompressedImm.immediate, CompressedImm.stored, Short.quadrant, Short.funct3, Short.rd,
      Short.stackLoadWord, Immediate.encode, Immediate.cLwsp, BitVec.extractLsb'_or,
      Immediate.join_cLwsp h, ha]
  | double | floatDouble =>
    simp (disch := decide) [decode16, stackLoadWord, loadInstr, AccessSize.stackLoadOffset,
      Operand.store, CompressedImm.immediate, CompressedImm.stored, Short.quadrant, Short.funct3, Short.rd,
      Short.stackLoadDouble, Immediate.encode, Immediate.cLdsp, BitVec.extractLsb'_or,
      Immediate.join_cLdsp h, ha]

theorem decode16_stackStore {bank : Bank} {size : AccessSize} (haccess : IsShortAccess x bank size)
    (h : size.stackStoreOffset.immediate.fits v = true) :
    decode16 x
        (((Operand.compressedImm size.stackStoreOffset).store
          (Field.compressedRs2.insert (stackStoreWord bank size) a) v).setWidth 16) =
      some (storeInstr bank size (a.extractLsb' 0 5) 2 (v.toBitVec.setWidth 12)) := by
  cases haccess with
  | word | floatWord =>
    simp (disch := decide) [decode16, stackStoreWord, storeInstr, AccessSize.stackStoreOffset,
      Operand.store, CompressedImm.immediate, CompressedImm.stored, Short.quadrant, Short.funct3, Short.rs2,
      Short.stackStoreWord, Immediate.encode, Immediate.cSwsp, BitVec.extractLsb'_or,
      Immediate.join_cSwsp h]
  | double | floatDouble =>
    simp (disch := decide) [decode16, stackStoreWord, storeInstr, AccessSize.stackStoreOffset,
      Operand.store, CompressedImm.immediate, CompressedImm.stored, Short.quadrant, Short.funct3, Short.rs2,
      Short.stackStoreDouble, Immediate.encode, Immediate.cSdsp, BitVec.extractLsb'_or,
      Immediate.join_cSdsp h]

end Short

end RiscvAssembler
