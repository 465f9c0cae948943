import RiscvAssembler.Proofs.Machine.Instruction

/-!
Words as instructions, and machines that run them. `decode32` reads words of 32 bits, `decode16`
compressed words as the instructions they stand for; a reserved word is none. A machine fetches two
bytes, and two more if the lowest two bits are set.
-/

namespace RiscvAssembler

/-! ### Words of 32 bits -/

namespace Wide

def opcode (w : BitVec 32) : Nat := (w.extractLsb' 0 7).toNat
def funct3 (w : BitVec 32) : Nat := (w.extractLsb' 12 3).toNat
def funct6 (w : BitVec 32) : Nat := (w.extractLsb' 26 6).toNat
def funct7 (w : BitVec 32) : Nat := (w.extractLsb' 25 7).toNat
def rd (w : BitVec 32) : Reg := w.extractLsb' 7 5
def rs1 (w : BitVec 32) : Reg := w.extractLsb' 15 5
def rs2 (w : BitVec 32) : Reg := w.extractLsb' 20 5

/-- The amount of a shift by a constant. -/
def shamt (w : BitVec 32) : BitVec 6 := w.extractLsb' 20 6

/-- The immediate of loads, jumps through a register and arithmetic. -/
def imm (w : BitVec 32) : BitVec 12 := w.extractLsb' 20 12

/-- The offset of a store. -/
def storeOffset (w : BitVec 32) : BitVec 12 :=
  w.extractLsb' 25 7 ++ w.extractLsb' 7 5

/-- The offset of a conditional branch. -/
def branchOffset (w : BitVec 32) : BitVec 13 :=
  w.extractLsb' 31 1 ++ w.extractLsb' 7 1 ++ w.extractLsb' 25 6 ++ w.extractLsb' 8 4 ++ 0#1

/-- The offset of a jump. -/
def jumpOffset (w : BitVec 32) : BitVec 21 :=
  w.extractLsb' 31 1 ++ w.extractLsb' 12 8 ++ w.extractLsb' 20 1 ++ w.extractLsb' 21 10 ++ 0#1

end Wide

/-- The condition of a branch, by its function field. -/
def Condition.ofFunct3? : Nat → Option Condition
  | 0b000 => some .eq
  | 0b001 => some .ne
  | 0b100 => some .lt
  | 0b101 => some .ge
  | 0b110 => some .ltu
  | 0b111 => some .geu
  | _ => none

/-- The size of an access, by its function field. -/
def AccessSize.ofFunct3? : Nat → Option AccessSize
  | 0b010 => some .word
  | 0b011 => some .double
  | _ => none

/-- Registers of 32 bits have no accesses of eight bytes. -/
def AccessSize.restrict? (x : Xlen) (size : AccessSize) : Option AccessSize :=
  match x, size with
  | .rv32, .double => none
  | _, _ => some size

open Wide

/-- An operation with a constant or a shift by one. -/
def decodeOpImm (x : Xlen) (w : BitVec 32) : Option Instr :=
  match funct3 w, funct6 w with
  | 0b000, _ => some (.opImm .add (rd w) (rs1 w) (imm w))
  | 0b111, _ => some (.opImm .and (rd w) (rs1 w) (imm w))
  | 0b001, 0b000000 => shiftBy .left
  | 0b101, 0b000000 => shiftBy .right
  | 0b101, 0b010000 => shiftBy .rightArithmetic
  | _, _ => none
where
  shiftBy (s : Shift) : Option Instr :=
    if (shamt w).toNat < x.bits then some (.shift s (rd w) (rs1 w) (shamt w)) else none

/-- An operation on registers. -/
def decodeOp (w : BitVec 32) : Option Instr :=
  match funct7 w, funct3 w with
  | 0b0000000, 0b000 => some (.op .add (rd w) (rs1 w) (rs2 w))
  | 0b0000000, 0b100 => some (.op .xor (rd w) (rs1 w) (rs2 w))
  | 0b0000000, 0b110 => some (.op .or (rd w) (rs1 w) (rs2 w))
  | 0b0000000, 0b111 => some (.op .and (rd w) (rs1 w) (rs2 w))
  | 0b0100000, 0b000 => some (.op .sub (rd w) (rs1 w) (rs2 w))
  | _, _ => none

/-- An operation on the low 32 bits of registers of 64 bits. -/
def decodeOpWord (w : BitVec 32) : Option Instr :=
  match funct7 w, funct3 w with
  | 0b0000000, 0b000 => some (.op .addw (rd w) (rs1 w) (rs2 w))
  | 0b0100000, 0b000 => some (.op .subw (rd w) (rs1 w) (rs2 w))
  | _, _ => none

/-- A breakpoint, or a write to a control register that cannot be written. -/
def decodeSystem (w : BitVec 32) : Option Instr :=
  if w = 0x00100073 then some .ebreak
  else if funct3 w = 0b001 ∧ w.extractLsb' 30 2 = 0b11 then some .illegal
  else none

/-- The instruction of a word of 32 bits. -/
def decode32 (x : Xlen) (w : BitVec 32) : Option Instr :=
  match opcode w with
  | 0x63 => (Condition.ofFunct3? (funct3 w)).map (.branch · (rs1 w) (rs2 w) (branchOffset w))
  | 0x6f => some (.jal (rd w) (jumpOffset w))
  | 0x67 => if funct3 w = 0 then some (.jalr (rd w) (rs1 w) (imm w)) else none
  | 0x37 => some (.lui (rd w) (w.extractLsb' 12 20))
  | 0x13 => decodeOpImm x w
  | 0x33 => decodeOp w
  | 0x03 => ((AccessSize.ofFunct3? (funct3 w)).bind (·.restrict? x)).map
      (.load · (rd w) (rs1 w) (imm w))
  | 0x23 => ((AccessSize.ofFunct3? (funct3 w)).bind (·.restrict? x)).map
      (.store · (rs2 w) (rs1 w) (storeOffset w))
  | 0x07 => (AccessSize.ofFunct3? (funct3 w)).map (.floatLoad · (rd w) (rs1 w) (imm w))
  | 0x27 => (AccessSize.ofFunct3? (funct3 w)).map (.floatStore · (rs2 w) (rs1 w) (storeOffset w))
  | 0x1b => if x = .rv64 ∧ funct3 w = 0 then some (.opImm .addw (rd w) (rs1 w) (imm w)) else none
  | 0x3b => if x = .rv64 then decodeOpWord w else none
  | 0x73 => decodeSystem w
  | _ => none

/-! ### Compressed words -/

namespace Short

def quadrant (h : BitVec 16) : Nat := (h.extractLsb' 0 2).toNat
def funct3 (h : BitVec 16) : Nat := (h.extractLsb' 13 3).toNat
def rd (h : BitVec 16) : Reg := h.extractLsb' 7 5
def rs2 (h : BitVec 16) : Reg := h.extractLsb' 2 5

/-- A register from 8 to 15, by its three bits. -/
def reg (r : BitVec 3) : Reg := 0b01#2 ++ r

/-- The register in the upper short slot. -/
def upperReg (h : BitVec 16) : Reg := reg (h.extractLsb' 7 3)

/-- The register in the lower short slot. -/
def lowerReg (h : BitVec 16) : Reg := reg (h.extractLsb' 2 3)

/-- The immediate of arithmetic. -/
def imm (h : BitVec 16) : BitVec 6 :=
  h.extractLsb' 12 1 ++ h.extractLsb' 2 5

/-- The offset of a conditional branch. -/
def branchOffset (h : BitVec 16) : BitVec 9 :=
  h.extractLsb' 12 1 ++ h.extractLsb' 5 2 ++ h.extractLsb' 2 1 ++ h.extractLsb' 10 2 ++
    h.extractLsb' 3 2 ++ 0#1

/-- The offset of a jump. -/
def jumpOffset (h : BitVec 16) : BitVec 12 :=
  h.extractLsb' 12 1 ++ h.extractLsb' 8 1 ++ h.extractLsb' 9 2 ++ h.extractLsb' 6 1 ++
    h.extractLsb' 7 1 ++ h.extractLsb' 2 1 ++ h.extractLsb' 11 1 ++ h.extractLsb' 3 3 ++ 0#1

/-- The offset of an access of four bytes. -/
def wordOffset (h : BitVec 16) : BitVec 12 :=
  (h.extractLsb' 5 1 ++ h.extractLsb' 10 3 ++ h.extractLsb' 6 1 ++ 0#2).setWidth 12

/-- The offset of an access of eight bytes. -/
def doubleOffset (h : BitVec 16) : BitVec 12 :=
  (h.extractLsb' 5 2 ++ h.extractLsb' 10 3 ++ 0#3).setWidth 12

/-- The offset of a load of four bytes from the stack. -/
def stackLoadWord (h : BitVec 16) : BitVec 12 :=
  (h.extractLsb' 2 2 ++ h.extractLsb' 12 1 ++ h.extractLsb' 4 3 ++ 0#2).setWidth 12

/-- The offset of a load of eight bytes from the stack. -/
def stackLoadDouble (h : BitVec 16) : BitVec 12 :=
  (h.extractLsb' 2 3 ++ h.extractLsb' 12 1 ++ h.extractLsb' 5 2 ++ 0#3).setWidth 12

/-- The offset of a store of four bytes to the stack. -/
def stackStoreWord (h : BitVec 16) : BitVec 12 :=
  (h.extractLsb' 7 2 ++ h.extractLsb' 9 4 ++ 0#2).setWidth 12

/-- The offset of a store of eight bytes to the stack. -/
def stackStoreDouble (h : BitVec 16) : BitVec 12 :=
  (h.extractLsb' 7 3 ++ h.extractLsb' 10 3 ++ 0#3).setWidth 12

/-- The distance of an address on the stack from its pointer. -/
def stackAddress (h : BitVec 16) : BitVec 10 :=
  h.extractLsb' 7 4 ++ h.extractLsb' 11 2 ++ h.extractLsb' 5 1 ++ h.extractLsb' 6 1 ++ 0#2

/-- What is added to the stack pointer. -/
def stackAdjustment (h : BitVec 16) : BitVec 10 :=
  h.extractLsb' 12 1 ++ h.extractLsb' 3 2 ++ h.extractLsb' 5 1 ++ h.extractLsb' 2 1 ++
    h.extractLsb' 6 1 ++ 0#4

end Short

open Short in
/-- A shift of a register by the immediate of a compressed word. -/
def decodeShortShift (x : Xlen) (s : Shift) (r : Reg) (h : BitVec 16) : Option Instr :=
  if (imm h).toNat < x.bits then some (.shift s r r (imm h)) else none

open Short in
/-- Compressed arithmetic on a short register. -/
def decodeShortArithmetic (x : Xlen) (h : BitVec 16) : Option Instr :=
  let r := upperReg h
  match (h.extractLsb' 10 2).toNat, (h.extractLsb' 12 1).toNat, (h.extractLsb' 5 2).toNat with
  | 0b00, _, _ => decodeShortShift x .right r h
  | 0b01, _, _ => decodeShortShift x .rightArithmetic r h
  | 0b10, _, _ => some (.opImm .and r r ((imm h).signExtend 12))
  | 0b11, 0, 0b00 => some (.op .sub r r (lowerReg h))
  | 0b11, 0, 0b01 => some (.op .xor r r (lowerReg h))
  | 0b11, 0, 0b10 => some (.op .or r r (lowerReg h))
  | 0b11, 0, 0b11 => some (.op .and r r (lowerReg h))
  | 0b11, 1, 0b00 => if x = .rv64 then some (.op .subw r r (lowerReg h)) else none
  | 0b11, 1, 0b01 => if x = .rv64 then some (.op .addw r r (lowerReg h)) else none
  | _, _, _ => none

open Short in
/-- Compressed moves, additions and jumps through registers. -/
def decodeShortRegister (h : BitVec 16) : Option Instr :=
  if h.extractLsb' 12 1 = 0 then
    if rs2 h ≠ 0 then some (.op .add (rd h) 0 (rs2 h))
    else if rd h ≠ 0 then some (.jalr 0 (rd h) 0)
    else none
  else
    if rs2 h ≠ 0 then some (.op .add (rd h) (rd h) (rs2 h))
    else if rd h ≠ 0 then some (.jalr 1 (rd h) 0)
    else some .ebreak

open Short in
/-- The instruction that a compressed word stands for. -/
def decode16 (x : Xlen) (h : BitVec 16) : Option Instr :=
  match quadrant h, funct3 h with
  | 0, 0b000 =>
    if stackAddress h ≠ 0 then some (.opImm .add (lowerReg h) 2 ((stackAddress h).setWidth 12))
    else if h = 0 then some .illegal
    else none
  | 0, 0b001 => some (.floatLoad .double (lowerReg h) (upperReg h) (doubleOffset h))
  | 0, 0b010 => some (.load .word (lowerReg h) (upperReg h) (wordOffset h))
  | 0, 0b011 =>
    match x with
    | .rv32 => some (.floatLoad .word (lowerReg h) (upperReg h) (wordOffset h))
    | .rv64 => some (.load .double (lowerReg h) (upperReg h) (doubleOffset h))
  | 0, 0b101 => some (.floatStore .double (lowerReg h) (upperReg h) (doubleOffset h))
  | 0, 0b110 => some (.store .word (lowerReg h) (upperReg h) (wordOffset h))
  | 0, 0b111 =>
    match x with
    | .rv32 => some (.floatStore .word (lowerReg h) (upperReg h) (wordOffset h))
    | .rv64 => some (.store .double (lowerReg h) (upperReg h) (doubleOffset h))
  | 1, 0b000 => some (.opImm .add (rd h) (rd h) ((imm h).signExtend 12))
  | 1, 0b001 =>
    match x with
    | .rv32 => some (.jal 1 ((jumpOffset h).signExtend 21))
    | .rv64 =>
      if rd h = 0 then none else some (.opImm .addw (rd h) (rd h) ((imm h).signExtend 12))
  | 1, 0b010 => some (.opImm .add (rd h) 0 ((imm h).signExtend 12))
  | 1, 0b011 =>
    if rd h = 2 then
      if stackAdjustment h = 0 then none
      else some (.opImm .add 2 2 ((stackAdjustment h).signExtend 12))
    else if imm h = 0 then none
    else some (.lui (rd h) ((imm h).signExtend 20))
  | 1, 0b100 => decodeShortArithmetic x h
  | 1, 0b101 => some (.jal 0 ((jumpOffset h).signExtend 21))
  | 1, 0b110 => some (.branch .eq (upperReg h) 0 ((branchOffset h).signExtend 13))
  | 1, 0b111 => some (.branch .ne (upperReg h) 0 ((branchOffset h).signExtend 13))
  | 2, 0b000 => decodeShortShift x .left (rd h) h
  | 2, 0b001 => some (.floatLoad .double (rd h) 2 (stackLoadDouble h))
  | 2, 0b010 => if rd h = 0 then none else some (.load .word (rd h) 2 (stackLoadWord h))
  | 2, 0b011 =>
    match x with
    | .rv32 => some (.floatLoad .word (rd h) 2 (stackLoadWord h))
    | .rv64 => if rd h = 0 then none else some (.load .double (rd h) 2 (stackLoadDouble h))
  | 2, 0b100 => decodeShortRegister h
  | 2, 0b101 => some (.floatStore .double (rs2 h) 2 (stackStoreDouble h))
  | 2, 0b110 => some (.store .word (rs2 h) 2 (stackStoreWord h))
  | 2, 0b111 =>
    match x with
    | .rv32 => some (.floatStore .word (rs2 h) 2 (stackStoreWord h))
    | .rv64 => some (.store .double (rs2 h) 2 (stackStoreDouble h))
  | _, _ => none

/-! ### Words without operands -/

/-- Words without operands, compressed and in full. -/
def closedWords : List (BitVec 16 × BitVec 32 × Instr) :=
  [(0x0000, 0xc0001073, .illegal), (0x9002, 0x00100073, .ebreak),
    (0x8082, 0x00008067, .jalr 0 1 0), (0x0001, 0x00000013, .opImm .add 0 0 0)]

theorem decode_of_mem_closedWords {h : BitVec 16} {w : BitVec 32} {i : Instr}
    (hmem : (h, w, i) ∈ closedWords) (x : Xlen) :
    decode16 x h = some i ∧ decode32 x w = some i := by
  simp only [closedWords, List.mem_cons, List.not_mem_nil, or_false, Prod.mk.injEq] at hmem
  rcases hmem with ⟨rfl, rfl, rfl⟩ | ⟨rfl, rfl, rfl⟩ | ⟨rfl, rfl, rfl⟩ | ⟨rfl, rfl, rfl⟩
  · constructor
    · simp [decode16, Short.quadrant, Short.funct3, Short.stackAddress]
    · simp [decode32, Wide.opcode, decodeSystem, Wide.funct3]
  · constructor
    · simp [decode16, Short.quadrant, Short.funct3, decodeShortRegister, Short.rs2, Short.rd]
    · simp [decode32, Wide.opcode, decodeSystem]
  · constructor
    · simp [decode16, Short.quadrant, Short.funct3, decodeShortRegister, Short.rs2, Short.rd]
    · simp [decode32, Wide.opcode, Wide.funct3, Wide.rd, Wide.rs1, Wide.imm]
  · constructor
    · simp [decode16, Short.quadrant, Short.funct3, Short.rd, Short.imm]
    · simp [decode32, Wide.opcode, decodeOpImm, Wide.funct3, Wide.rd, Wide.rs1, Wide.imm]

/-! ### Running -/

namespace Machine

variable {x : Xlen}

/-- The instruction at the program counter, and its length. -/
def fetch (m : Machine x) : Option (Instr × Nat) :=
  if (m.half m.pc).extractLsb' 0 2 = 0b11 then (decode32 x (m.word m.pc)).map (·, 4)
  else (decode16 x (m.half m.pc)).map (·, 2)

/-- One instruction. -/
def step (m : Machine x) : Except Trap (Machine x) :=
  match m.fetch with
  | none => .error .unknownInstruction
  | some (i, length) => i.exec (m.pc + BitVec.ofNat x.bits length) (i.target m.pc) m

/-- A number of instructions. -/
def run : (n : Nat) → Machine x → Except Trap (Machine x)
  | 0, m => .ok m
  | n + 1, m => m.step >>= run n

/-- The memory of a machine holds bytes from an address on. -/
def Holds (m : Machine x) (a : BitVec x.bits) (bytes : List UInt8) : Prop :=
  ∀ (i : Nat) (b : UInt8), bytes[i]? = some b → m.mem (a + BitVec.ofNat x.bits i) = b.toBitVec

end Machine

end RiscvAssembler
