import RiscvAssembler.Branch.Kind
import RiscvAssembler.Error
import RiscvAssembler.Word.Field

/-!
Branches whose length depends on layout. A branch to a symbol is one instruction if it reaches its
target, and otherwise a branch on the opposite condition over a jump:

* 2 bytes: a compressed branch or jump;
* 4 bytes: a branch or jump;
* 6 bytes: a compressed branch over a jump;
* 8 bytes: a branch over a jump.

A branch starts out with 8 bytes, and its length only shrinks.
-/

namespace RiscvAssembler

/-! ### Lengths -/

namespace BranchKind

/-- Whether a distance lies less than `reach` bytes ahead or at most that many bytes back. -/
def within (reach distance : Int64) : Bool :=
  -reach ≤ distance && distance < reach

/-- How far the compressed form reaches. -/
def shortReach (k : BranchKind) : Int64 :=
  if k.isJump then 2048 else 256

/-- How far a conditional branch reaches. -/
def conditionalReach : Int64 := 4096

/-- The length of a branch to a target that is not in sight. -/
def farLength (k : BranchKind) : Nat :=
  if k.isJump then 4 else 8

/-- The length that a distance calls for; without a distance, the target is not in sight. -/
def lengthAt (k : BranchKind) : (distance : Option Int64) → Nat
  | none => k.farLength
  | some d =>
    if k.isShort && within k.shortReach d then 2
    else if within conditionalReach d then 4
    else if k = .shortBranch then 6
    else k.farLength

/-- Whether a length is enough for a distance. -/
def reaches (k : BranchKind) (length : Nat) (distance : Option Int64) : Bool :=
  match length, distance with
  | 2, some _ | 4, some _ => k.lengthAt distance ≤ length
  | 4, none => k.isJump
  | 6, _ => k = .shortBranch
  | 8, _ => !k.isJump
  | _, _ => false

end BranchKind

/-! ### Words -/

namespace BranchWord

/-- A jump that keeps no return address. -/
def jal : Word := 0x6f

/-- A jump that keeps its return address in `ra`. -/
def jalRa : Word := 0xef

/-- A branch on `x0 = x0`. -/
def beq : Word := 0x63

/-- A branch on `x0 ≠ x0`. -/
def bne : Word := 0x1063

/-- The word of a compressed branch or jump in its form of 32 bits. -/
def expand (insn : Word) : Except Defect Word :=
  let rs1 := Field.shortRs1.extract insn + 8
  match (insn &&& 0xe003).toNat with
  | 0xa001 => .ok jal
  | 0x2001 => .ok jalRa
  | 0xc001 => .ok (Field.rs1.insert beq rs1)
  | 0xe001 => .ok (Field.rs1.insert bne rs1)
  | _ => .error (.impossible (.notACompressedBranch insn))

/-- A branch on the opposite condition, over the jump that follows it. -/
def skip (insn : Word) : Word :=
  (insn ^^^ 0x1000) ||| Immediate.b.encode 8

/-- A compressed branch on the opposite condition, over the jump that follows it. -/
def skipShort (insn : Word) : Word :=
  (insn ^^^ 0x2000) ||| Immediate.cBranch.encode 6

end BranchWord

/-! ### Branches -/

/-- How far a branch has come. -/
inductive BranchState where
  /-- Its length is not yet chosen. -/
  | unresolved
  /-- Its length was chosen at least once. -/
  | resolved
  /-- Its bytes are out, so its length is final. -/
  | emitted
deriving DecidableEq, Repr

/-- A branch whose length depends on layout. -/
structure Branch where
  kind : BranchKind
  length : Nat
  /-- The symbol to go to. -/
  target : String
  /-- What is added to the address of the symbol. -/
  offset : Int64
  /-- The word, as encoded for its kind, with no distance in it. -/
  insn : Word
  state : BranchState
deriving DecidableEq, Repr

/-- The bytes of a branch and the relocation in them. -/
structure BranchCode where
  bytes : List UInt8
  /-- Where in the bytes the relocation applies. -/
  patchOffset : Nat
  kind : RelocType
deriving DecidableEq, Repr

namespace Branch

/-- A new branch, with the longest form reserved. -/
def new (kind : BranchKind) (insn : Word) (target : String) (offset : Int64) : Branch :=
  ⟨kind, 8, target, offset, insn, .unresolved⟩

/-- The branch with its length chosen anew for a distance, and never longer than before. The
length of an emitted branch stays. -/
def tighten (b : Branch) (distance : Option Int64) : Branch :=
  if b.state = .emitted then b
  else { b with length := min (b.kind.lengthAt distance) b.length, state := .resolved }

/-- The word of the branch in 32 bits. -/
def wideWord (b : Branch) : Except Defect Word :=
  if b.kind.isShort then BranchWord.expand b.insn else .ok b.insn

/-- The relocation of a branch in one instruction of 32 bits. -/
def wideReloc (b : Branch) : RelocType :=
  if b.kind.isJump then .jal else .branch

/-- The bytes for the length chosen. -/
def bytes (b : Branch) : Except Defect BranchCode :=
  if b.length = 2 then .ok ⟨b.insn.toBytes 2, 0, b.kind.reloc⟩
  else if b.length = 6 then
    .ok ⟨(BranchWord.skipShort b.insn).toBytes 2 ++ BranchWord.jal.toBytes 4, 2, .jal⟩
  else do
    let insn ← b.wideWord
    if b.length = 8 then
      .ok ⟨(BranchWord.skip insn).toBytes 4 ++ BranchWord.jal.toBytes 4, 4, .jal⟩
    else .ok ⟨insn.toBytes 4, 0, b.wideReloc⟩

/-- The branch with its bytes out. The length has to be chosen before, and has to be enough. -/
def emit (b : Branch) (distance : Option Int64) : Except Defect (Branch × BranchCode) :=
  if b.state = .unresolved ∨ b.kind.reaches b.length distance = false then
    .error (.cannotReach b.length distance)
  else do
    let out ← b.bytes
    .ok ({ b with state := .emitted }, out)

end Branch

end RiscvAssembler
