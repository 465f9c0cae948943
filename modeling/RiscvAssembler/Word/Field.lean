import RiscvAssembler.Word.Basic

/-!
Contiguous fields of an instruction word. `insert` replaces the bits of a field and no others;
`extract` reads them back.
-/

namespace RiscvAssembler

/-- A field of `width` bits of a word, the lowest at `shift`. -/
structure Field where
  shift : Nat
  width : Nat
deriving DecidableEq, Repr

namespace Field

/-- The bits of the field, in place. -/
def mask (f : Field) : Word :=
  Word.lowMask f.width <<< f.shift

/-- The word with the bits of the field replaced by the low bits of `value`. -/
def insert (f : Field) (word value : Word) : Word :=
  (word &&& ~~~f.mask) ||| ((value <<< f.shift) &&& f.mask)

/-- The value that the field holds in `word`. -/
def extract (f : Field) (word : Word) : Word :=
  (word &&& f.mask) >>> f.shift

/-! ### The fields of the instruction formats -/

def opcode : Field := ⟨0, 7⟩
def quadrant : Field := ⟨0, 2⟩
def rd : Field := ⟨7, 5⟩
def rs1 : Field := ⟨15, 5⟩
def rs2 : Field := ⟨20, 5⟩
def rs3 : Field := ⟨27, 5⟩
def rounding : Field := ⟨12, 3⟩
def predecessor : Field := ⟨24, 4⟩
def successor : Field := ⟨20, 4⟩
def csr : Field := ⟨20, 12⟩
def shamt : Field := ⟨20, 6⟩
def shamtWord : Field := ⟨20, 5⟩
def funct7 : Field := ⟨25, 7⟩
def funct3 : Field := ⟨12, 3⟩
def funct2 : Field := ⟨25, 2⟩
def shortRs1 : Field := ⟨7, 3⟩
def shortRs2 : Field := ⟨2, 3⟩
def compressedRs2 : Field := ⟨2, 5⟩
def compressedFunct6 : Field := ⟨10, 6⟩
def compressedFunct4 : Field := ⟨12, 4⟩
def compressedFunct3 : Field := ⟨13, 3⟩
def compressedFunct2 : Field := ⟨5, 2⟩

end Field

end RiscvAssembler
