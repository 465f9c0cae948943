import RiscvAssembler.Encoding.Basic
import RiscvAssembler.Pseudo.Constant

/-!
Expansion of pseudo-instructions. An expansion is a list of steps: instructions, which are encoded
again from their text, and labels. An address is taken in two parts: the upper part relative to the
instruction that a fresh label marks, and the low part against that label.
-/

namespace RiscvAssembler

/-- A step of an expansion. -/
inductive Step where
  /-- An instruction. A relocation given here takes the place of the one that the operands ask
  for. -/
  | insn (mnemonic : String) (operands : List Char) (reloc : Option (RelocType × Expr))
  /-- A label at the current position. -/
  | label (name : String)
deriving DecidableEq, Repr

namespace Step

/-- Whether a step may be compressed: a relocated field keeps its place in a word of 32 bits. -/
def mayCompress : Step → Bool
  | .insn _ _ none => true
  | _ => false

/-- The text of a step. -/
def display : Step → String
  | .insn mnemonic operands none => mnemonic ++ " " ++ String.ofList operands
  | .insn mnemonic operands (some (kind, target)) =>
    mnemonic ++ " " ++ String.ofList operands ++ " # " ++ kind.display ++ " " ++ target.display
  | .label name => name ++ ":"

/-- The step of a constant. -/
def ofConstant (s : ConstantStep) : Step :=
  .insn s.mnemonic s.operands none

end Step

/-! ### Operand texts -/

namespace Expansion

/-- The text of an integer register. -/
def integer (n : Nat) : List Char :=
  'x' :: Text.decimal n

/-- The text of a floating-point register. -/
def float (n : Nat) : List Char :=
  'f' :: Text.decimal n

/-- A register and zero. -/
def withZero (r : Nat) : List Char :=
  integer r ++ ", 0".toList

/-- A register, a register and zero. -/
def sumWithZero (rd rs : Nat) : List Char :=
  integer rd ++ ", ".toList ++ withZero rs

/-- A register and the address in a base register. -/
def access (register : List Char) (base : Nat) : List Char :=
  register ++ ", 0(".toList ++ integer base ++ ")".toList

/-! ### Addresses -/

/-- The name of a label that marks the upper part of an address. -/
def upperLabel (n : Nat) : String :=
  ".Lpcrel_hi" ++ Text.decimalText n

/-- The upper part of an address in `base`, marked by a label, and an instruction that takes the
low part. -/
def throughUpper (label : String) (base : Nat) (target : Expr) (upper low : RelocType)
    (mnemonic : String) (operands : List Char) : List Step :=
  [.label label, .insn "auipc" (withZero base) (some (upper, target)),
    .insn mnemonic operands (some (low, .symbol label 0))]

/-- The mnemonic that loads an address. -/
def loadAddress : Xlen → String
  | .rv32 => "lw"
  | .rv64 => "ld"

/-- The address of a symbol, in `rd`. -/
def addressSteps (label : String) (rd : Nat) (target : Expr) (upper : RelocType) : List Step :=
  throughUpper label rd target upper .pcrelLo12I "addi" (sumWithZero rd rd)

/-- A word at the address of a symbol, in the register that takes the address first. -/
def loadSteps (label : String) (rd : Nat) (target : Expr) (upper : RelocType) (mnemonic : String) :
    List Step :=
  throughUpper label rd target upper .pcrelLo12I mnemonic (access (integer rd) rd)

/-- The distance of an expression from its symbol. -/
def offset : Expr → Int64
  | .constant value => value
  | .symbol _ addend => addend
  | .register _ => 0

end Expansion

/-! ### Pseudo-instructions -/

open Expansion in
/-- The steps of an encoded pseudo-instruction with immediate `imm`, and the number of the next
fresh label. Only an expansion that places a label uses its number up. -/
def PseudoKind.steps (kind : PseudoKind) (e : Encoded) (imm : Expr) (xlen : Xlen) (pic : Bool)
    (next : Nat) : Except InstructionError (List Step × Nat) :=
  let mnemonic := e.template.mnemonic
  let rd := (Field.rd.extract e.bits).toNat
  let rs1 := (Field.rs1.extract e.bits).toNat
  let rs2 := (Field.rs2.extract e.bits).toNat
  let label := upperLabel next
  let constant (value : Int64) : List Step := (loadConstant xlen rd value).map .ofConstant
  match kind with
  | .li =>
    match imm with
    | .constant value => .ok (constant value, next)
    | _ => .error (.requiresConstant mnemonic)
  | .la | .lla =>
    if fits32 (offset imm) then
      match imm with
      | .constant value => .ok (constant value, next)
      | _ =>
        if pic && kind = .la then
          .ok (loadSteps label rd imm .gotHi20 (loadAddress xlen), next + 1)
        else .ok (addressSteps label rd imm .pcrelHi20, next + 1)
    else .error (.outOfRange "address offset" (offset imm) (-0x80000000) 0x7fffffff)
  | .laTlsGd => .ok (addressSteps label rd imm .tlsGdHi20, next + 1)
  | .laTlsIe => .ok (loadSteps label rd imm .tlsGotHi20 (loadAddress xlen), next + 1)
  | .load => .ok (loadSteps label rd imm .pcrelHi20 mnemonic, next + 1)
  | .floatLoad =>
    .ok (throughUpper label rs1 imm .pcrelHi20 .pcrelLo12I mnemonic (access (float rd) rs1),
      next + 1)
  | .store =>
    let source := if mnemonic.toList.head? = some 'f' then float rs2 else integer rs2
    .ok (throughUpper label rs1 imm .pcrelHi20 .pcrelLo12S mnemonic (access source rs1), next + 1)
  | .call =>
    .ok ([.insn "auipc" (withZero rs1) (some (e.reloc.getD .call, imm)),
      .insn "jalr" (integer rd ++ ", ".toList ++ integer rs1) none], next)

/-- The expansion of an encoded pseudo-instruction, which needs an immediate. -/
def PseudoKind.expand (kind : PseudoKind) (e : Encoded) (xlen : Xlen) (pic : Bool) (next : Nat) :
    Except InstructionError (List Step × Nat) :=
  match e.imm with
  | none => .error (.requiresConstant e.template.mnemonic)
  | some imm => kind.steps e imm xlen pic next

end RiscvAssembler
