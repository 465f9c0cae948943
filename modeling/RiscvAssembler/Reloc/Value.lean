import RiscvAssembler.Branch.Kind

/-!
Values of relocations: what a relocation makes of the bits already in place, the instruction bits
of a known constant, and the field of a branch for a known distance.
-/

namespace RiscvAssembler.RelocType

/-- The contents of a field after a relocation that adds, subtracts or sets `value`. Bits outside
the mask of the relocation stay. -/
def combine? (k : RelocType) (old value : Word) : Option Word :=
  let merge (new : Word) : Word := (old &&& ~~~k.info.mask) ||| (new &&& k.info.mask)
  match k with
  | .add8 | .add16 | .add32 | .add64 => some (merge (old + value))
  | .sub6 | .sub8 | .sub16 | .sub32 | .sub64 => some (merge (old - value))
  | .set6 | .set8 | .set16 | .set32 => some (merge value)
  | _ => .none

/-- The upper part of a constant, rounded so that adding the sign-extended low part restores it. -/
def highPart (value : Int64) : Int64 :=
  Int64.ofBitVec ((value.toBitVec + 0x800) &&& ~~~0xfff)

/-- The instruction bits of a relocation against a constant, for the types that need no symbol. -/
def constantBits? (k : RelocType) (value : Int64) : Option Word :=
  match k with
  | .abs32 => some (value.toBitVec &&& 0xffffffff)
  | .hi20 => some (Immediate.u.encode (highPart value))
  | .lo12I => some (Immediate.i.encode value)
  | .lo12S => some (Immediate.s.encode value)
  | _ => .none

/-- The instruction bits of a branch over a distance, if its field can hold the distance. -/
def branchBits? (k : RelocType) (distance : Int64) : Option Word :=
  match BranchKind.ofReloc? k with
  | .none => .none
  | some b =>
    if b.immediate.fits distance then some (b.immediate.encode distance) else .none

/-- Whether code at a relocation of this type is of a kind that linkers shorten. -/
def isShortenable : RelocType → Bool
  | .hi20 | .lo12I | .lo12S | .gotHi20 | .tprelHi20 | .tprelLo12I | .tprelLo12S | .tprelAdd
  | .call | .callPlt | .pcrelHi20 | .pcrelLo12I | .pcrelLo12S
  | .add8 | .add16 | .add32 | .add64 | .sub8 | .sub16 | .sub32 | .sub64 => true
  | _ => false

/-- Whether a linker may shorten code at a relocation of this type, given whether it may at all. -/
def mayRelax (k : RelocType) (relax : Bool) : Bool :=
  relax && k.isShortenable

end RiscvAssembler.RelocType
