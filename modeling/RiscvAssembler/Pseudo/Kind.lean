/-!
The kinds of pseudo-instructions, by the instructions they stand for.
-/

namespace RiscvAssembler

/-- A kind of pseudo-instruction. -/
inductive PseudoKind where
  /-- A constant in a register. -/
  | li
  /-- The address of a symbol, through the offset table in position-independent code. -/
  | la
  /-- The address of a symbol, always relative to the program counter. -/
  | lla
  /-- The address of a thread-local symbol, in the general dynamic model. -/
  | laTlsGd
  /-- The address of a thread-local symbol, in the initial-exec model. -/
  | laTlsIe
  /-- A load from the address of a symbol. -/
  | load
  /-- A floating-point load from the address of a symbol, by way of a scratch register. -/
  | floatLoad
  /-- A store to the address of a symbol, by way of a scratch register. -/
  | store
  /-- A call or jump to any address. -/
  | call
deriving DecidableEq, Repr

end RiscvAssembler
