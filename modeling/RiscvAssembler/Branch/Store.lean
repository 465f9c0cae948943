import RiscvAssembler.Branch.Basic

/-!
A collection of branches, each known by the number under which it was created. The calls on it run
in `BranchStoreM`, which keeps what was done before an error.
-/

namespace RiscvAssembler

/-- Branches, in order of creation. -/
structure BranchStore where
  branches : Array Branch
deriving DecidableEq, Repr

/-- A call on a collection of branches. -/
abbrev BranchStoreM := EStateM Defect BranchStore

namespace BranchStore

/-- No branches. -/
def empty : BranchStore :=
  ⟨#[]⟩

/-- The branch of a number. -/
def get? (s : BranchStore) (i : Nat) : Option Branch :=
  s.branches[i]?

/-- The length to reserve for a branch: the longest one if there is no such branch. -/
def estimate (s : BranchStore) (i : Nat) : Nat :=
  match s.get? i with
  | none => 8
  | some b => b.length

/-- The collection with a branch added at the end. -/
def push (s : BranchStore) (b : Branch) : BranchStore :=
  ⟨s.branches.push b⟩

/-- The collection with another branch under a number that is in use. -/
def replace (s : BranchStore) (i : Nat) (b : Branch) : BranchStore :=
  ⟨s.branches.setIfInBounds i b⟩

end BranchStore

/-! ### Calls -/

namespace BranchStoreM

/-- The branch of a number, which has to exist. -/
def find (i : Nat) : BranchStoreM Branch := do
  match (← get).get? i with
  | none => throw (.impossible (.noBranch i))
  | some b => return b

/-- Creates a branch and answers with its number. -/
def create (insn : Word) (kind : RelocType) (target : String) (offset : Int64) :
    BranchStoreM Nat := do
  match BranchKind.ofReloc? kind with
  | none => throw (.impossible (.notABranch kind))
  | some k =>
    let number := (← get).branches.size
    modify (·.push (.new k insn target offset))
    return number

/-- Chooses the length of a branch anew for a distance. -/
def tighten (i : Nat) (distance : Option Int64) : BranchStoreM Nat := do
  let b := (← find i).tighten distance
  modify (·.replace i b)
  return b.length

/-- Answers with the bytes of a branch. -/
def emit (i : Nat) (distance : Option Int64) : BranchStoreM BranchCode := do
  match (← find i).emit distance with
  | .error d => throw d
  | .ok (b, code) =>
    modify (·.replace i b)
    return code

end BranchStoreM

/-! ### Calls as functions -/

namespace BranchStore

/-- The answer to a call and the collection after it. -/
def call {α : Type} (s : BranchStore) (request : BranchStoreM α) :
    Except Defect (α × BranchStore) :=
  match request s with
  | .ok answer s' => .ok (answer, s')
  | .error d _ => .error d

/-- The number of a new branch, and the collection with it. -/
def create (s : BranchStore) (insn : Word) (kind : RelocType) (target : String) (offset : Int64) :
    Except Defect (Nat × BranchStore) :=
  s.call (BranchStoreM.create insn kind target offset)

/-- The length of a branch chosen anew for a distance. -/
def tighten (s : BranchStore) (i : Nat) (distance : Option Int64) :
    Except Defect (Nat × BranchStore) :=
  s.call (BranchStoreM.tighten i distance)

/-- The bytes of a branch. -/
def emit (s : BranchStore) (i : Nat) (distance : Option Int64) :
    Except Defect (BranchCode × BranchStore) :=
  s.call (BranchStoreM.emit i distance)

end BranchStore

end RiscvAssembler
