import RiscvAssembler.Isa.Basic

/-!
The instructions that compressed words expand to, and every conditional branch: what they do to a
machine, and how words of 16 and 32 bits spell them. Immediates are put together from the bits of the
word as the instruction formats lay them out; nothing here refers to the tables of the assembler.

`Instr.exec` takes the address after the instruction and the address that a branch or jump goes to,
so that one instruction can be compared in forms of different length.
-/

namespace RiscvAssembler

/-! ### Machines -/

/-- The number of a register. -/
abbrev Reg := BitVec 5

/-- A machine: program counter, registers and memory. -/
structure Machine (x : Xlen) where
  pc : BitVec x.bits
  reg : Reg → BitVec x.bits
  /-- Floating-point registers; single precision fills the upper half with ones. -/
  freg : Reg → BitVec 64
  mem : BitVec x.bits → BitVec 8

/-- Why a machine stops. -/
inductive Trap where
  | breakpoint
  | illegalInstruction
  /-- The word spells none of the instructions considered here. -/
  | unknownInstruction
deriving DecidableEq, Repr

namespace Machine

variable {x : Xlen}

/-- The value of a register; `x0` is always zero. -/
def read (m : Machine x) (r : Reg) : BitVec x.bits :=
  if r = 0 then 0 else m.reg r

/-- The machine with a register written; writes to `x0` are lost. -/
def write (m : Machine x) (r : Reg) (value : BitVec x.bits) : Machine x :=
  if r = 0 then m else { m with reg := fun q => if q = r then value else m.reg q }

/-- The machine with a floating-point register written. -/
def writeFloat (m : Machine x) (r : Reg) (value : BitVec 64) : Machine x :=
  { m with freg := fun q => if q = r then value else m.freg q }

/-- The machine at another address. -/
def goto (m : Machine x) (pc : BitVec x.bits) : Machine x :=
  { m with pc := pc }

/-- The two bytes at an address. -/
def half (m : Machine x) (a : BitVec x.bits) : BitVec 16 :=
  m.mem (a + 1) ++ m.mem a

/-- The four bytes at an address. -/
def word (m : Machine x) (a : BitVec x.bits) : BitVec 32 :=
  m.half (a + 2) ++ m.half a

/-- The eight bytes at an address. -/
def double (m : Machine x) (a : BitVec x.bits) : BitVec 64 :=
  m.word (a + 4) ++ m.word a

/-- The machine with the low `n` bytes of a value stored at an address. -/
def store (m : Machine x) (a : BitVec x.bits) (n : Nat) (value : BitVec 64) : Machine x :=
  { m with mem := fun p =>
      if (p - a).toNat < n then value.extractLsb' (8 * (p - a).toNat) 8 else m.mem p }

end Machine

/-! ### Instructions -/

/-- Conditions of branches. -/
inductive Condition where
  | eq | ne | lt | ge | ltu | geu
deriving DecidableEq, Repr

namespace Condition

/-- Whether two values satisfy a condition. -/
def holds {n : Nat} (c : Condition) (a b : BitVec n) : Bool :=
  match c with
  | .eq => a == b
  | .ne => a != b
  | .lt => a.slt b
  | .ge => !a.slt b
  | .ltu => a.ult b
  | .geu => !a.ult b

/-- The opposite condition. -/
def opposite : Condition → Condition
  | .eq => .ne
  | .ne => .eq
  | .lt => .ge
  | .ge => .lt
  | .ltu => .geu
  | .geu => .ltu

theorem holds_opposite {n : Nat} (c : Condition) (a b : BitVec n) :
    c.opposite.holds a b = !c.holds a b := by
  cases c <;> simp [opposite, holds, bne]

end Condition

/-- Operations on two values; the last two work on 32 bits. -/
inductive Operation where
  | add | sub | and | or | xor | addw | subw
deriving DecidableEq, Repr

/-- The result of an operation. -/
def Operation.result {n : Nat} (op : Operation) (a b : BitVec n) : BitVec n :=
  match op with
  | .add => a + b
  | .sub => a - b
  | .and => a &&& b
  | .or => a ||| b
  | .xor => a ^^^ b
  | .addw => (a.setWidth 32 + b.setWidth 32).signExtend n
  | .subw => (a.setWidth 32 - b.setWidth 32).signExtend n

/-- Shifts by a constant. -/
inductive Shift where
  | left | right | rightArithmetic
deriving DecidableEq, Repr

/-- The result of a shift. -/
def Shift.result {n : Nat} (s : Shift) (a : BitVec n) (amount : Nat) : BitVec n :=
  match s with
  | .left => a <<< amount
  | .right => a >>> amount
  | .rightArithmetic => a.sshiftRight amount

/-- Sizes of memory accesses. -/
inductive AccessSize where
  | word | double
deriving DecidableEq, Repr

/-- An instruction. -/
inductive Instr where
  | lui (rd : Reg) (imm : BitVec 20)
  | jal (rd : Reg) (offset : BitVec 21)
  | jalr (rd rs1 : Reg) (imm : BitVec 12)
  | branch (c : Condition) (rs1 rs2 : Reg) (offset : BitVec 13)
  | op (o : Operation) (rd rs1 rs2 : Reg)
  | opImm (o : Operation) (rd rs1 : Reg) (imm : BitVec 12)
  | shift (s : Shift) (rd rs1 : Reg) (amount : BitVec 6)
  | load (size : AccessSize) (rd rs1 : Reg) (imm : BitVec 12)
  | store (size : AccessSize) (rs2 rs1 : Reg) (imm : BitVec 12)
  | floatLoad (size : AccessSize) (rd rs1 : Reg) (imm : BitVec 12)
  | floatStore (size : AccessSize) (rs2 rs1 : Reg) (imm : BitVec 12)
  | ebreak
  | illegal
deriving DecidableEq, Repr

namespace Instr

variable {x : Xlen}

/-- The address that a branch or jump at `pc` goes to. -/
def target (i : Instr) (pc : BitVec x.bits) : BitVec x.bits :=
  match i with
  | .jal _ offset => pc + offset.signExtend x.bits
  | .branch _ _ _ offset => pc + offset.signExtend x.bits
  | _ => pc

/-- What an instruction does, where `next` is the address after it and `target` the one that a
branch or jump goes to. -/
def exec (i : Instr) (next target : BitVec x.bits) (m : Machine x) : Except Trap (Machine x) :=
  match i with
  | .lui rd imm => .ok ((m.write rd ((imm ++ 0#12).signExtend x.bits)).goto next)
  | .jal rd _ => .ok ((m.write rd next).goto target)
  | .jalr rd rs1 imm =>
    .ok ((m.write rd next).goto ((m.read rs1 + imm.signExtend x.bits) &&& ~~~1))
  | .branch c rs1 rs2 _ =>
    .ok (m.goto (if c.holds (m.read rs1) (m.read rs2) then target else next))
  | .op o rd rs1 rs2 => .ok ((m.write rd (o.result (m.read rs1) (m.read rs2))).goto next)
  | .opImm o rd rs1 imm =>
    .ok ((m.write rd (o.result (m.read rs1) (imm.signExtend x.bits))).goto next)
  | .shift s rd rs1 amount => .ok ((m.write rd (s.result (m.read rs1) amount.toNat)).goto next)
  | .load size rd rs1 imm =>
    let a := m.read rs1 + imm.signExtend x.bits
    match size with
    | .word => .ok ((m.write rd ((m.word a).signExtend x.bits)).goto next)
    | .double => .ok ((m.write rd ((m.double a).signExtend x.bits)).goto next)
  | .store size rs2 rs1 imm =>
    let a := m.read rs1 + imm.signExtend x.bits
    match size with
    | .word => .ok ((m.store a 4 ((m.read rs2).setWidth 64)).goto next)
    | .double => .ok ((m.store a 8 ((m.read rs2).setWidth 64)).goto next)
  | .floatLoad size rd rs1 imm =>
    let a := m.read rs1 + imm.signExtend x.bits
    match size with
    | .word => .ok ((m.writeFloat rd (BitVec.allOnes 32 ++ m.word a)).goto next)
    | .double => .ok ((m.writeFloat rd (m.double a)).goto next)
  | .floatStore size rs2 rs1 imm =>
    let a := m.read rs1 + imm.signExtend x.bits
    match size with
    | .word => .ok ((m.store a 4 (m.freg rs2)).goto next)
    | .double => .ok ((m.store a 8 (m.freg rs2)).goto next)
  | .ebreak => .error .breakpoint
  | .illegal => .error .illegalInstruction

end Instr

end RiscvAssembler
