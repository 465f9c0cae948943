import Std.Data.TreeMap
import RiscvAssembler.Error
import RiscvAssembler.Text.Scan

/-!
Labels that are no symbols of their own. A numeric label may be defined again and again; `1b` in
operands names the latest definition of `1` and `1f` the next one, and each definition has a symbol.
A dot in operands names the place of the instruction, which gets a fresh symbol.
-/

namespace RiscvAssembler

/-- A label in front of a statement. -/
inductive Label where
  | named (name : String)
  | numbered (n : Nat)
deriving DecidableEq, Repr

/-- Where a numeric reference looks for its label. -/
inductive Direction where
  | backward
  | forward
deriving DecidableEq, Repr

namespace Label

/-- The number of a numeric label: decimal digits below 2^32. -/
def number? (s : List Char) : Option Nat :=
  (Text.readNumeral? 10 s).filter (· < 0x100000000)

/-- The label of a name. -/
def read? (name : List Char) : Option Label :=
  match number? name with
  | some n => some (.numbered n)
  | none =>
    match name with
    | [] => none
    | c :: rest =>
      if Text.isSymbolStart c && rest.all Text.isSymbolChar then
        some (.named (String.ofList name))
      else none

/-- A numeric reference: the digits of a label, and `b` or `f`. -/
def reference? (token : List Char) : Option (Nat × Direction) :=
  match number? token.dropLast, token.getLast? with
  | some n, some 'b' => some (n, .backward)
  | some n, some 'f' => some (n, .forward)
  | _, _ => none

/-- The symbol of a definition of a numeric label. -/
def localSymbol (n definition : Nat) : String :=
  ".Llocal" ++ Text.decimalText n ++ "_" ++ Text.decimalText definition

/-- The symbol of a place that a dot names. -/
def dotSymbol (n : Nat) : String :=
  ".Ldot" ++ Text.decimalText n

end Label

/-- What a session knows of such labels. -/
structure Labels where
  /-- How often each numeric label was defined. -/
  counts : Std.TreeMap Nat Nat
  /-- References to later definitions: the label, and how often it was defined before. -/
  pending : Array (Nat × Nat)
  /-- Number of the next symbol for a dot. -/
  nextDot : Nat
  /-- Number of the next symbol for the upper part of an address. -/
  nextUpper : Nat

namespace Labels

/-- No labels yet. -/
def empty : Labels :=
  ⟨∅, #[], 0, 0⟩

/-- How often a numeric label was defined. -/
def count (l : Labels) (n : Nat) : Nat :=
  l.counts.getD n 0

/-- The symbol of one more definition of a numeric label. -/
def define (l : Labels) (n : Nat) : String × Labels :=
  (Label.localSymbol n (l.count n), { l with counts := l.counts.insert n (l.count n + 1) })

/-- The symbol for one more dot. -/
def freshDot (l : Labels) : String × Labels :=
  (Label.dotSymbol l.nextDot, { l with nextDot := l.nextDot + 1 })

/-- A token with a numeric reference in it replaced by the symbol of its definition. -/
def resolveToken (l : Labels) (token : List Char) : Except Error (Labels × List Char) :=
  match Label.reference? token with
  | none => .ok (l, token)
  | some (n, .backward) =>
    match l.count n with
    | 0 => .error (.undefinedLocalLabel (String.ofList token))
    | k + 1 => .ok (l, (Label.localSymbol n k).toList)
  | some (n, .forward) =>
    .ok ({ l with pending := l.pending.push (n, l.count n) },
      (Label.localSymbol n (l.count n)).toList)

/-- Replaces references in token after token. References before a faulty one stay recorded. -/
def resolveTokens : Labels → List (List Char) → Labels × Except Error (List Char)
  | l, [] => (l, .ok [])
  | l, token :: rest =>
    match l.resolveToken token with
    | .error e => (l, .error e)
    | .ok (l, text) =>
      let (l, outcome) := l.resolveTokens rest
      (l, outcome.map (text ++ ·))

/-- The runs of symbol characters and of other characters. -/
def tokens (s : List Char) : List (List Char) :=
  s.splitBy fun a b => Text.isSymbolChar a == Text.isSymbolChar b

/-- An operand text with its numeric references replaced. -/
def resolve (l : Labels) (s : List Char) : Labels × Except Error (List Char) :=
  l.resolveTokens (tokens s)

/-- The first reference to a later definition that never came. -/
def unresolved? (l : Labels) : Option Nat :=
  (l.pending.find? fun (n, before) => l.count n ≤ before).map (·.1)

end Labels

end RiscvAssembler
