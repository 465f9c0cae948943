import RiscvAssembler.Word.Basic

/-!
Immediates scattered over an instruction word. A layout is a list of runs: `width` bits of the
immediate from bit `immBit` on land at word bit `wordBit`. One pair `encode` and `extract` serves
every layout, and a value fits a layout exactly when encoding loses nothing of it, so range and
alignment need no rule of their own.
-/

namespace RiscvAssembler

/-- One run of immediate bits and its place in the word. -/
structure Segment where
  immBit : Nat
  width : Nat
  wordBit : Nat
deriving DecidableEq, Repr

namespace Segment

/-- Word bits of the run. -/
def mask (s : Segment) : Word :=
  Word.lowMask s.width <<< s.wordBit

/-- The bits of the run, moved from the immediate to the word. -/
def scatter (s : Segment) (imm : Word) : Word :=
  ((imm >>> s.immBit) &&& Word.lowMask s.width) <<< s.wordBit

/-- The bits of the run, moved from the word to the immediate. -/
def gather (s : Segment) (word : Word) : Word :=
  ((word >>> s.wordBit) &&& Word.lowMask s.width) <<< s.immBit

/-- The immediate bit just above the run. -/
def top (s : Segment) : Nat :=
  s.immBit + s.width

end Segment

/-- How an immediate is spread over a word, and whether its highest bit is a sign. -/
structure Immediate where
  segments : List Segment
  signed : Bool
deriving DecidableEq, Repr

namespace Immediate

/-- Word bits that the immediate takes up. -/
def mask (l : Immediate) : Word :=
  l.segments.foldr (fun s acc => s.mask ||| acc) 0

/-- Number of immediate bits up to the highest one carried. -/
def width (l : Immediate) : Nat :=
  l.segments.foldr (fun s acc => max s.top acc) 0

/-- The word bits of `value`; bits of it that the layout does not carry are dropped. -/
def encode (l : Immediate) (value : Int64) : Word :=
  l.segments.foldr (fun s acc => s.scatter value.toBitVec ||| acc) 0

/-- The immediate bits held in `word`, not yet sign-extended. -/
def raw (l : Immediate) (word : Word) : Word :=
  l.segments.foldr (fun s acc => s.gather word ||| acc) 0

/-- The immediate held in `word`. -/
def extract (l : Immediate) (word : Word) : Int64 :=
  if l.signed then Int64.ofBitVec (((l.raw word).setWidth l.width).signExtend 64)
  else Int64.ofBitVec (l.raw word)

/-- Whether encoding keeps all of `value`. -/
def fits (l : Immediate) (value : Int64) : Bool :=
  l.extract (l.encode value) == value

/-! ### The layouts of the instruction formats -/

/-- Loads, jumps through a register and arithmetic with a constant. -/
def i : Immediate := ⟨[⟨0, 12, 20⟩], true⟩

/-- Stores. -/
def s : Immediate := ⟨[⟨0, 5, 7⟩, ⟨5, 7, 25⟩], true⟩

/-- Conditional branches. -/
def b : Immediate := ⟨[⟨1, 4, 8⟩, ⟨5, 6, 25⟩, ⟨11, 1, 7⟩, ⟨12, 1, 31⟩], true⟩

/-- Upper immediates. -/
def u : Immediate := ⟨[⟨12, 20, 12⟩], true⟩

/-- Jumps. -/
def j : Immediate := ⟨[⟨1, 10, 21⟩, ⟨11, 1, 20⟩, ⟨12, 8, 12⟩, ⟨20, 1, 31⟩], true⟩

/-- Six-bit compressed immediates. -/
def ci : Immediate := ⟨[⟨0, 5, 2⟩, ⟨5, 1, 12⟩], true⟩

/-- Three-bit signed compressed immediates. -/
def cSigned3 : Immediate := ⟨[⟨0, 3, 10⟩], true⟩

/-- Eight-bit unsigned compressed immediates. -/
def cUnsigned8 : Immediate := ⟨[⟨0, 8, 5⟩], false⟩

/-- Scaled additions to the stack pointer. -/
def cAddi4spn : Immediate := ⟨[⟨2, 1, 6⟩, ⟨3, 1, 5⟩, ⟨4, 2, 11⟩, ⟨6, 4, 7⟩], false⟩

/-- Adjustments of the stack pointer. -/
def cAddi16sp : Immediate := ⟨[⟨4, 1, 6⟩, ⟨5, 1, 2⟩, ⟨6, 1, 5⟩, ⟨7, 2, 3⟩, ⟨9, 1, 12⟩], true⟩

/-- Compressed loads and stores of four bytes. -/
def cLw : Immediate := ⟨[⟨2, 1, 6⟩, ⟨3, 3, 10⟩, ⟨6, 1, 5⟩], false⟩

/-- Compressed loads and stores of eight bytes. -/
def cLd : Immediate := ⟨[⟨3, 3, 10⟩, ⟨6, 2, 5⟩], false⟩

/-- Compressed loads of four bytes from the stack. -/
def cLwsp : Immediate := ⟨[⟨2, 3, 4⟩, ⟨5, 1, 12⟩, ⟨6, 2, 2⟩], false⟩

/-- Compressed loads of eight bytes from the stack. -/
def cLdsp : Immediate := ⟨[⟨3, 2, 5⟩, ⟨5, 1, 12⟩, ⟨6, 3, 2⟩], false⟩

/-- Compressed stores of four bytes to the stack. -/
def cSwsp : Immediate := ⟨[⟨2, 4, 9⟩, ⟨6, 2, 7⟩], false⟩

/-- Compressed stores of eight bytes to the stack. -/
def cSdsp : Immediate := ⟨[⟨3, 3, 10⟩, ⟨6, 3, 7⟩], false⟩

/-- Compressed branches. -/
def cBranch : Immediate := ⟨[⟨1, 2, 3⟩, ⟨3, 2, 10⟩, ⟨5, 1, 2⟩, ⟨6, 2, 5⟩, ⟨8, 1, 12⟩], true⟩

/-- Compressed jumps. -/
def cJump : Immediate :=
  ⟨[⟨1, 3, 3⟩, ⟨4, 1, 11⟩, ⟨5, 1, 2⟩, ⟨6, 1, 7⟩, ⟨7, 1, 6⟩, ⟨8, 2, 9⟩, ⟨10, 1, 8⟩, ⟨11, 1, 12⟩],
    true⟩

end Immediate

end RiscvAssembler
