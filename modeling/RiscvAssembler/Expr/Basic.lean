import RiscvAssembler.Text.Numeral

/-!
Operand expressions: a constant, a symbol with an addend, or a register name that stands where an
expression could. Arithmetic on constants and addends wraps at 64 bits.
-/

namespace RiscvAssembler

/-- An operand expression. -/
inductive Expr where
  /-- A known value. -/
  | constant (value : Int64)
  /-- An address that layout or linking settles, plus a constant. -/
  | symbol (name : String) (addend : Int64)
  /-- A register name, which no immediate accepts. -/
  | register (name : String)
deriving DecidableEq, Repr

namespace Expr

/-- The value of a constant. -/
def constant? : Expr → Option Int64
  | .constant value => some value
  | _ => none

/-- Whether the expression is a symbol. -/
def isSymbol : Expr → Bool
  | .symbol .. => true
  | _ => false

/-- The expression moved by `delta`. Registers do not move. -/
def shift (delta : Int64) : Expr → Expr
  | .constant value => .constant (value + delta)
  | .symbol name addend => .symbol name (addend + delta)
  | .register name => .register name

/-- The text of an expression. -/
def text : Expr → List Char
  | .constant value => Text.decimal value.toInt
  | .symbol name addend =>
    if addend = 0 then name.toList
    else if addend < 0 then name.toList ++ Text.decimal addend.toInt
    else name.toList ++ '+' :: Text.decimal addend.toInt
  | .register name => name.toList

/-- The text of an expression, as a string. -/
def display (e : Expr) : String :=
  String.ofList e.text

end Expr

end RiscvAssembler
