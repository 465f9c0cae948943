import RiscvAssembler.Reloc.Basic
import RiscvAssembler.Word.Immediate

/-!
The four kinds of branches to a symbol: conditional or not, matched in a compressed form or not.
Each kind has a relocation type and an immediate layout of its own.
-/

namespace RiscvAssembler

/-- A kind of branch. -/
inductive BranchKind where
  /-- A conditional branch. -/
  | branch
  /-- A jump. -/
  | jump
  /-- A conditional branch in a compressed form. -/
  | shortBranch
  /-- A jump in a compressed form. -/
  | shortJump
deriving DecidableEq, Repr

namespace BranchKind

/-- Every kind of branch. -/
def all : List BranchKind :=
  [.branch, .jump, .shortBranch, .shortJump]

/-- Whether the branch is always taken. -/
def isJump : BranchKind → Bool
  | .jump | .shortJump => true
  | .branch | .shortBranch => false

/-- Whether the branch was matched in a compressed form. -/
def isShort : BranchKind → Bool
  | .shortBranch | .shortJump => true
  | .branch | .jump => false

/-- The relocation type of the target. -/
def reloc : BranchKind → RelocType
  | .branch => .branch
  | .jump => .jal
  | .shortBranch => .rvcBranch
  | .shortJump => .rvcJump

/-- The kind of branch that a relocation type belongs to. -/
def ofReloc? : RelocType → Option BranchKind
  | .branch => some .branch
  | .jal => some .jump
  | .rvcBranch => some .shortBranch
  | .rvcJump => some .shortJump
  | _ => none

/-- Where the distance to the target stands in the word. -/
def immediate : BranchKind → Immediate
  | .branch => .b
  | .jump => .j
  | .shortBranch => .cBranch
  | .shortJump => .cJump

theorem ofReloc?_eq_some_iff {r : RelocType} {k : BranchKind} :
    ofReloc? r = some k ↔ r = k.reloc := by
  cases k <;> cases r <;> simp [ofReloc?, reloc]

end BranchKind

end RiscvAssembler
