import RiscvAssembler.Expr.Basic
import RiscvAssembler.Register.Names

/-!
Evaluators read one expression off the front of operand text. The basic evaluator sums literals
and at most one symbol; the hexadecimal one reads bare digits.
-/

namespace RiscvAssembler

/-- Reads one expression and returns it with the rest, or nothing if no expression starts here. -/
abbrev Evaluator := List Char → Option (Expr × List Char)

namespace Evaluator

/-! ### Terms -/

/-- A term of a sum. -/
inductive Term where
  | number (value : Int64)
  | name (name : List Char)
deriving DecidableEq, Repr

/-- A run of signs and blanks: whether it negates, and the text after it. -/
def signs (negative : Bool) : List Char → Bool × List Char
  | [] => (negative, [])
  | c :: rest =>
    if Text.isBlank c || c == '+' then signs negative rest
    else if c == '-' then signs (!negative) rest
    else (negative, c :: rest)

/-- The radix a literal announces, and its text from the first digit on. -/
def radix (s : List Char) : Nat × List Char :=
  match s with
  | '0' :: 'x' :: rest => (16, rest)
  | '0' :: 'X' :: rest => (16, rest)
  | '0' :: 'b' :: d :: rest => if d = '0' ∨ d = '1' then (2, d :: rest) else (10, s)
  | '0' :: 'B' :: d :: rest => if d = '0' ∨ d = '1' then (2, d :: rest) else (10, s)
  | '0' :: 'o' :: rest => (8, rest)
  | '0' :: 'O' :: rest => (8, rest)
  | _ => (10, s)

/-- A literal below 2^64, read as a signed value. Underscores between its digits do not count. -/
def literal? (s : List Char) : Option (Int64 × List Char) :=
  let body := radix s
  let digits := (body.2.takeWhile Text.isWordChar).filter (· != '_')
  ((Text.readNumeral? body.1 digits).filter (· < 0x10000000000000000)).map fun n =>
    (Int64.ofBitVec (BitVec.ofNat 64 n), body.2.dropWhile Text.isWordChar)

/-- One term with the signs before it. -/
def term? (s : List Char) : Option (Bool × Term × List Char) :=
  match signs false s with
  | (_, []) => none
  | (negative, c :: rest) =>
    if c.isDigit then
      (literal? (c :: rest)).map fun (value, after) => (negative, .number value, after)
    else if Text.isSymbolStart c then
      some (negative, .name ((c :: rest).takeWhile Text.isSymbolChar),
        (c :: rest).dropWhile Text.isSymbolChar)
    else none

/-! ### Every term takes text -/

theorem length_signs_le (negative : Bool) (s : List Char) :
    (signs negative s).2.length ≤ s.length := by
  induction s generalizing negative with
  | nil => simp [signs]
  | cons c rest ih =>
    unfold signs
    split
    · exact Nat.le_succ_of_le (ih _)
    · split
      · exact Nat.le_succ_of_le (ih _)
      · exact Nat.le_refl _

theorem length_radix_le (s : List Char) : (radix s).2.length ≤ s.length := by
  unfold radix
  split <;> try split
  all_goals simp only [List.length_cons]; omega

theorem length_of_literal? {s rest : List Char} {value : Int64}
    (h : literal? s = some (value, rest)) : rest.length < s.length := by
  unfold literal? at h
  have hr := length_radix_le s
  generalize radix s = body at h hr
  obtain ⟨n, hn, he⟩ := Option.map_eq_some_iff.1 h
  cases he
  have hd := congrArg List.length
    (List.takeWhile_append_dropWhile (p := Text.isWordChar) (l := body.2))
  rw [List.length_append] at hd
  cases ht : body.2.takeWhile Text.isWordChar with
  | nil => simp [ht, Text.readNumeral?] at hn
  | cons c cs =>
    rw [ht, List.length_cons] at hd
    omega

theorem length_of_term? {s rest : List Char} {negative : Bool} {t : Term}
    (h : term? s = some (negative, t, rest)) : rest.length < s.length := by
  unfold term? at h
  have hs := length_signs_le false s
  split at h
  · cases h
  · rename_i c r heq
    simp only [heq, List.length_cons] at hs
    split at h
    · obtain ⟨⟨value, after⟩, hl, he⟩ := Option.map_eq_some_iff.1 h
      cases he
      have := length_of_literal? hl
      simp only [List.length_cons] at this
      omega
    · split at h
      · rename_i hc
        cases h
        have hc' : Text.isSymbolChar c = true := by simp [Text.isSymbolChar, hc]
        rw [List.dropWhile_cons_of_pos hc']
        have := (List.dropWhile_suffix (l := r) Text.isSymbolChar).length_le
        omega
      · cases h

/-! ### Sums -/

/-- A sum read so far. -/
structure Sum where
  constant : Int64
  symbol : Option (List Char)
  terms : Nat
deriving DecidableEq, Repr

namespace Sum

/-- The sum of no terms. -/
def empty : Sum :=
  ⟨0, none, 0⟩

/-- The sum with one more term. A symbol comes once and is never negated. -/
def add? (sum : Sum) (negative : Bool) : Term → Option Sum
  | .number value =>
    some { sum with
      constant := if negative then sum.constant - value else sum.constant + value
      terms := sum.terms + 1 }
  | .name name =>
    if negative || sum.symbol.isSome then none
    else some { sum with symbol := some name, terms := sum.terms + 1 }

/-- The expression that a sum stands for. A register name stands alone. -/
def toExpr? (sum : Sum) : Option Expr :=
  match sum.symbol with
  | none => some (.constant sum.constant)
  | some name =>
    if Register.isName name then
      if sum.terms = 1 then some (.register (String.ofList name)) else none
    else some (.symbol (String.ofList name) sum.constant)

end Sum

/-- The terms after the first, each joined by a sign. -/
def moreTerms (sum : Sum) (s : List Char) : Option (Sum × List Char) :=
  match hs : Text.dropBlanks s with
  | c :: after =>
    if c = '+' ∨ c = '-' then
      match ht : term? after with
      | none => none
      | some (inner, t, rest) =>
        have : rest.length < s.length := by
          have h₁ := length_of_term? ht
          have h₂ := Text.length_dropBlanks_le s
          rw [hs, List.length_cons] at h₂
          omega
        match sum.add? ((c == '-') != inner) t with
        | none => none
        | some sum => moreTerms sum rest
    else some (sum, s)
  | [] => some (sum, s)
termination_by s.length

/-- Literals, symbols and registers, and sums of literals and at most one symbol. -/
def basic : Evaluator := fun s => do
  let (negative, t, rest) ← term? s
  let sum ← Sum.empty.add? negative t
  let (sum, rest) ← moreTerms sum rest
  let e ← sum.toExpr?
  return (e, rest)

/-- Whether `c` is a lower-case hexadecimal digit. -/
def isHexDigit (c : Char) : Bool :=
  c.isDigit || ('a' ≤ c && c ≤ 'f')

/-- A hexadecimal constant without sign or mark, below 2^63. -/
def hex : Evaluator := fun s =>
  ((Text.readNumeral? 16 (s.takeWhile isHexDigit)).filter (· < 0x8000000000000000)).map fun n =>
    (.constant (Int64.ofBitVec (BitVec.ofNat 64 n)), s.dropWhile isHexDigit)

end Evaluator

end RiscvAssembler
