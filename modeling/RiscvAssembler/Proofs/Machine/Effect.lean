import RiscvAssembler.Encoding.Basic
import RiscvAssembler.Proofs.Machine.Decode
import RiscvAssembler.Pseudo.Constant

/-!
Effects of encoded instructions. Two instructions have the same effect if they do the same to every
machine, wherever the next instruction and the target of a branch stand. The target itself is what
the relocation of the instruction names, and an encoding that stands for an instruction has no other
relocation (`Encoded.Denotes`).
-/

namespace RiscvAssembler

/-- Instructions that do the same to every machine. -/
def Instr.SameEffect (x : Xlen) (i j : Instr) : Prop :=
  ∀ (next target : BitVec x.bits) (m : Machine x), i.exec next target m = j.exec next target m

namespace Instr.SameEffect

variable {x : Xlen}

theorem refl (i : Instr) : SameEffect x i i :=
  fun _ _ _ => rfl

theorem op_comm {o : Operation} (ho : o ≠ .sub ∧ o ≠ .subw) (rd a b : Reg) :
    SameEffect x (.op o rd a b) (.op o rd b a) := by
  intro next target m
  have hcomm : o.result (m.read a) (m.read b) = o.result (m.read b) (m.read a) := by
    cases o with
    | add => exact BitVec.add_comm _ _
    | and => exact BitVec.and_comm _ _
    | or => exact BitVec.or_comm _ _
    | xor => exact BitVec.xor_comm _ _
    | addw => exact congrArg (BitVec.signExtend _) (BitVec.add_comm _ _)
    | sub => exact absurd rfl ho.1
    | subw => exact absurd rfl ho.2
  simp only [exec, hcomm]

/-- A register is moved by adding it to zero or zero to it. -/
theorem move (rd rs : Reg) : SameEffect x (.op .add rd 0 rs) (.opImm .add rd rs 0) := by
  intro next target m
  have hread : m.read 0 = 0 := if_pos rfl
  have himm : (0 : BitVec 12).signExtend x.bits = 0 := by cases x <;> rfl
  have hsum : Operation.add.result (m.read 0) (m.read rs) =
      Operation.add.result (m.read rs) ((0 : BitVec 12).signExtend x.bits) := by
    rw [hread, himm]
    exact BitVec.add_comm _ _
  simp only [exec, hsum]

end Instr.SameEffect

/-- Whether an instruction that goes to a target is a jump. -/
def Instr.isJump? : Instr → Option Bool
  | .jal .. => some true
  | .branch .. => some false
  | _ => none

/-- What an instruction leaves to be filled in: the target of a branch, under the relocation of its
kind and length, and nothing of any other instruction. -/
inductive Instr.Leaves (short : Bool) (i : Instr) : Option RelocType → Option Expr → Prop
  | nothing (h : i.isJump? = none) : Leaves short i none none
  | target (k : BranchKind) (hshort : k.isShort = short) (h : i.isJump? = some k.isJump)
      (name : String) (addend : Int64) :
      Leaves short i (some k.reloc) (some (.symbol name addend))

theorem Instr.Leaves.isBranch {short : Bool} {i : Instr} {r : RelocType} {imm : Option Expr}
    (h : i.Leaves short (some r) imm) : (BranchKind.ofReloc? r).isSome = true := by
  cases h with
  | target k => rw [BranchKind.ofReloc?_eq_some_iff.2 rfl, Option.isSome_some]

/-- The instruction of a step that loads a constant. -/
def ConstantStep.instr : ConstantStep → Instr
  | .lui rd upper => .lui (BitVec.ofNat 5 rd) (BitVec.ofNat 20 upper)
  | .addi rd rs imm => .opImm .add (BitVec.ofNat 5 rd) (BitVec.ofNat 5 rs) (imm.toBitVec.setWidth 12)
  | .addiw rd rs imm =>
    .opImm .addw (BitVec.ofNat 5 rd) (BitVec.ofNat 5 rs) (imm.toBitVec.setWidth 12)
  | .slli rd rs amount => .shift .left (BitVec.ofNat 5 rd) (BitVec.ofNat 5 rs) (BitVec.ofNat 6 amount)

/-- The target that a relocation gives a branch, and whether it is a jump. -/
def branchTarget? (reloc : Option RelocType) (imm : Option Expr) : Option (Bool × Expr) :=
  match reloc.bind BranchKind.ofReloc?, imm with
  | some k, some target => some (k.isJump, target)
  | _, _ => none

namespace Encoded

/-- The instructions of a word, or of a constant that is loaded. -/
def instructions? (x : Xlen) (e : Encoded) : Option (List Instr) :=
  match e.template.pseudo, e.imm with
  | some .li, some (.constant value) =>
    some ((loadConstant x (Field.rd.extract e.bits).toNat value).map ConstantStep.instr)
  | some _, _ => none
  | none, _ =>
    if e.length = 2 then (decode16 x (e.bits.setWidth 16)).map ([·])
    else (decode32 x (e.bits.setWidth 32)).map ([·])

/-- The target of a branch, and whether it is a jump. -/
def branch? (e : Encoded) : Option (Bool × Expr) :=
  branchTarget? e.reloc e.imm

/-- An encoding stands for one instruction, and leaves nothing to be filled in but the target of a
branch: what is left under a relocation would change the instruction. A pseudo-instruction has its
constant, and no relocation. -/
structure Denotes (x : Xlen) (e : Encoded) (i : Instr) : Prop where
  instructions : e.instructions? x = some [i]
  leaves : if e.template.isPseudo then e.reloc = none else i.Leaves (e.length == 2) e.reloc e.imm

theorem Denotes.isBranch_of_reloc {x : Xlen} {e : Encoded} {i : Instr} {r : RelocType}
    (h : e.Denotes x i) (hr : e.reloc = some r) : (BranchKind.ofReloc? r).isSome = true := by
  have hleaves := h.leaves
  rw [hr] at hleaves
  split at hleaves
  · cases hleaves
  · exact hleaves.isBranch

/-- Two encodings of one instruction: the same effect, and the same target if it is a branch. -/
structure SameEffect (x : Xlen) (e e' : Encoded) : Prop where
  branch : e.branch? = e'.branch?
  effect : ∃ i i', e.Denotes x i ∧ e'.Denotes x i' ∧ i.SameEffect x i'

end Encoded

end RiscvAssembler
