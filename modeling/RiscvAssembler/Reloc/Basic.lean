import RiscvAssembler.Word.Basic

/-!
The relocation types of the object format, each with its number, its name and the bits of the
section that it replaces.
-/

namespace RiscvAssembler

/-- A relocation type. -/
inductive RelocType where
  | none | abs32 | abs64 | relative | copy | jumpSlot | tlsDtpmod32 | tlsDtpmod64 | tlsDtprel32
  | tlsDtprel64 | tlsTprel32 | tlsTprel64 | branch | jal | call | callPlt | gotHi20 | tlsGotHi20
  | tlsGdHi20 | pcrelHi20 | pcrelLo12I | pcrelLo12S | hi20 | lo12I | lo12S | tprelHi20
  | tprelLo12I | tprelLo12S | tprelAdd | add8 | add16 | add32 | add64 | sub8 | sub16 | sub32
  | sub64 | gnuVtinherit | gnuVtentry | align | rvcBranch | rvcJump | rvcLui | gprelI | gprelS
  | tprelI | tprelS | relax | sub6 | set6 | set8 | set16 | set32 | pcrel32 | irelative
deriving DecidableEq, Repr

/-- How a linker checks a relocated value. -/
inductive Overflow where
  | unchecked
  | signed
  | unsigned
  | bitfield
deriving DecidableEq, Repr

/-- What the object format says of a relocation type. -/
structure RelocInfo where
  /-- Number of the type. -/
  id : Nat
  /-- Name of the type, without the part that all names share. -/
  name : String
  /-- Bytes of the section that the relocation may change. -/
  size : Nat
  bitWidth : Nat
  rightShift : Nat
  /-- Whether the value counts from the relocated place. -/
  pcRelative : Bool
  /-- The bits that the relocation replaces. -/
  mask : Word
  overflow : Overflow
deriving DecidableEq, Repr

namespace RelocType

/-- Every relocation type, by rising number. -/
def all : List RelocType :=
  [.none, .abs32, .abs64, .relative, .copy, .jumpSlot, .tlsDtpmod32, .tlsDtpmod64, .tlsDtprel32,
    .tlsDtprel64, .tlsTprel32, .tlsTprel64, .branch, .jal, .call, .callPlt, .gotHi20,
    .tlsGotHi20, .tlsGdHi20, .pcrelHi20, .pcrelLo12I, .pcrelLo12S, .hi20, .lo12I, .lo12S,
    .tprelHi20, .tprelLo12I, .tprelLo12S, .tprelAdd, .add8, .add16, .add32, .add64, .sub8,
    .sub16, .sub32, .sub64, .gnuVtinherit, .gnuVtentry, .align, .rvcBranch, .rvcJump, .rvcLui,
    .gprelI, .gprelS, .tprelI, .tprelS, .relax, .sub6, .set6, .set8, .set16, .set32, .pcrel32,
    .irelative]

/-- The entry of a relocation type. -/
def info : RelocType → RelocInfo
  | .none => ⟨0, "NONE", 0, 0, 0, false, 0, .unchecked⟩
  | .abs32 => ⟨1, "32", 4, 32, 0, false, 0xffffffff, .unchecked⟩
  | .abs64 => ⟨2, "64", 8, 64, 0, false, 0xffffffffffffffff, .unchecked⟩
  | .relative => ⟨3, "RELATIVE", 4, 32, 0, false, 0xffffffff, .unchecked⟩
  | .copy => ⟨4, "COPY", 0, 0, 0, false, 0, .bitfield⟩
  | .jumpSlot => ⟨5, "JUMP_SLOT", 0, 0, 0, false, 0, .bitfield⟩
  | .tlsDtpmod32 => ⟨6, "TLS_DTPMOD32", 4, 32, 0, false, 0xffffffff, .unchecked⟩
  | .tlsDtpmod64 => ⟨7, "TLS_DTPMOD64", 8, 64, 0, false, 0xffffffffffffffff, .unchecked⟩
  | .tlsDtprel32 => ⟨8, "TLS_DTPREL32", 4, 32, 0, false, 0xffffffff, .unchecked⟩
  | .tlsDtprel64 => ⟨9, "TLS_DTPREL64", 8, 64, 0, false, 0xffffffffffffffff, .unchecked⟩
  | .tlsTprel32 => ⟨10, "TLS_TPREL32", 4, 32, 0, false, 0xffffffff, .unchecked⟩
  | .tlsTprel64 => ⟨11, "TLS_TPREL64", 8, 64, 0, false, 0xffffffffffffffff, .unchecked⟩
  | .branch => ⟨16, "BRANCH", 4, 32, 0, true, 0xfe000f80, .signed⟩
  | .jal => ⟨17, "JAL", 4, 32, 0, true, 0xfffff000, .unchecked⟩
  | .call => ⟨18, "CALL", 8, 64, 0, true, 0xfff00000fffff000, .unchecked⟩
  | .callPlt => ⟨19, "CALL_PLT", 8, 64, 0, true, 0xfff00000fffff000, .unchecked⟩
  | .gotHi20 => ⟨20, "GOT_HI20", 4, 32, 0, true, 0xfffff000, .unchecked⟩
  | .tlsGotHi20 => ⟨21, "TLS_GOT_HI20", 4, 32, 0, true, 0xfffff000, .unchecked⟩
  | .tlsGdHi20 => ⟨22, "TLS_GD_HI20", 4, 32, 0, true, 0xfffff000, .unchecked⟩
  | .pcrelHi20 => ⟨23, "PCREL_HI20", 4, 32, 0, true, 0xfffff000, .unchecked⟩
  | .pcrelLo12I => ⟨24, "PCREL_LO12_I", 4, 32, 0, false, 0xfff00000, .unchecked⟩
  | .pcrelLo12S => ⟨25, "PCREL_LO12_S", 4, 32, 0, false, 0xfe000f80, .unchecked⟩
  | .hi20 => ⟨26, "HI20", 4, 32, 0, false, 0xfffff000, .unchecked⟩
  | .lo12I => ⟨27, "LO12_I", 4, 32, 0, false, 0xfff00000, .unchecked⟩
  | .lo12S => ⟨28, "LO12_S", 4, 32, 0, false, 0xfe000f80, .unchecked⟩
  | .tprelHi20 => ⟨29, "TPREL_HI20", 4, 32, 0, false, 0xfffff000, .unchecked⟩
  | .tprelLo12I => ⟨30, "TPREL_LO12_I", 4, 32, 0, false, 0xfff00000, .unchecked⟩
  | .tprelLo12S => ⟨31, "TPREL_LO12_S", 4, 32, 0, false, 0xfe000f80, .unchecked⟩
  | .tprelAdd => ⟨32, "TPREL_ADD", 4, 32, 0, false, 0, .unchecked⟩
  | .add8 => ⟨33, "ADD8", 1, 8, 0, false, 0xff, .unchecked⟩
  | .add16 => ⟨34, "ADD16", 2, 16, 0, false, 0xffff, .unchecked⟩
  | .add32 => ⟨35, "ADD32", 4, 32, 0, false, 0xffffffff, .unchecked⟩
  | .add64 => ⟨36, "ADD64", 8, 64, 0, false, 0xffffffffffffffff, .unchecked⟩
  | .sub8 => ⟨37, "SUB8", 1, 8, 0, false, 0xff, .unchecked⟩
  | .sub16 => ⟨38, "SUB16", 2, 16, 0, false, 0xffff, .unchecked⟩
  | .sub32 => ⟨39, "SUB32", 4, 32, 0, false, 0xffffffff, .unchecked⟩
  | .sub64 => ⟨40, "SUB64", 8, 64, 0, false, 0xffffffffffffffff, .unchecked⟩
  | .gnuVtinherit => ⟨41, "GNU_VTINHERIT", 0, 0, 0, false, 0, .unchecked⟩
  | .gnuVtentry => ⟨42, "GNU_VTENTRY", 0, 0, 0, false, 0, .unchecked⟩
  | .align => ⟨43, "ALIGN", 0, 0, 0, false, 0, .unchecked⟩
  | .rvcBranch => ⟨44, "RVC_BRANCH", 2, 16, 0, true, 0x1c7c, .signed⟩
  | .rvcJump => ⟨45, "RVC_JUMP", 2, 16, 0, true, 0x1ffc, .unchecked⟩
  | .rvcLui => ⟨46, "RVC_LUI", 2, 16, 0, false, 0x107c, .unchecked⟩
  | .gprelI => ⟨47, "GPREL_I", 4, 32, 0, false, 0xfff00000, .unchecked⟩
  | .gprelS => ⟨48, "GPREL_S", 4, 32, 0, false, 0xfe000f80, .unchecked⟩
  | .tprelI => ⟨49, "TPREL_I", 4, 32, 0, false, 0xfff00000, .unchecked⟩
  | .tprelS => ⟨50, "TPREL_S", 4, 32, 0, false, 0xfe000f80, .unchecked⟩
  | .relax => ⟨51, "RELAX", 0, 0, 0, false, 0, .unchecked⟩
  | .sub6 => ⟨52, "SUB6", 1, 8, 0, false, 0x3f, .unchecked⟩
  | .set6 => ⟨53, "SET6", 1, 8, 0, false, 0x3f, .unchecked⟩
  | .set8 => ⟨54, "SET8", 1, 8, 0, false, 0xff, .unchecked⟩
  | .set16 => ⟨55, "SET16", 2, 16, 0, false, 0xffff, .unchecked⟩
  | .set32 => ⟨56, "SET32", 4, 32, 0, false, 0xffffffff, .unchecked⟩
  | .pcrel32 => ⟨57, "32_PCREL", 4, 32, 0, true, 0xffffffff, .unchecked⟩
  | .irelative => ⟨58, "IRELATIVE", 4, 32, 0, false, 0xffffffff, .unchecked⟩

/-- What all names of relocation types start with. -/
def sharedName : String :=
  "R_RISCV_"

/-- The full name of a relocation type. -/
def display (k : RelocType) : String :=
  sharedName ++ k.info.name

/-- The relocation type of a name, full or without the shared part. -/
def ofName? (name : String) : Option RelocType :=
  let bare := if sharedName.toList.isPrefixOf name.toList then
      String.ofList (name.toList.drop sharedName.length)
    else name
  all.find? (·.info.name == bare)

/-- The relocation type of a number. -/
def ofId? (id : Nat) : Option RelocType :=
  all.find? (·.info.id == id)

end RelocType

end RiscvAssembler
