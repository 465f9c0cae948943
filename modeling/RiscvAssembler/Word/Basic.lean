/-!
Instruction words and their bytes. A word has 64 bits, of which an instruction uses the low 16 or
32; bytes are in memory order, the least significant first.
-/

namespace RiscvAssembler

/-- An instruction word. -/
abbrev Word := BitVec 64

namespace Word

/-- The word whose low `n` bits are set. -/
def lowMask (n : Nat) : Word :=
  (BitVec.allOnes n).setWidth 64

/-- The low `n` bytes. -/
def toBytes (w : Word) (n : Nat) : List UInt8 :=
  (List.range n).map fun i => UInt8.ofBitVec ((w >>> (8 * i)).setWidth 8)

/-- The word that the bytes make up. -/
def ofBytes : List UInt8 → Word
  | [] => 0
  | b :: rest => b.toBitVec.setWidth 64 ||| ofBytes rest <<< 8

@[simp] theorem length_toBytes (w : Word) (n : Nat) : (w.toBytes n).length = n := by
  simp [toBytes]

end Word

end RiscvAssembler
