import RiscvAssembler.Template.Basic

/-!
Templates of instructions given field by field. Most types take each register from either bank;
a floating-point register then needs floating point.
-/

namespace RiscvAssembler.Table

/-- Every way to take the registers from the two banks, the first register varying fastest. -/
def bankChoices : List Char → List (List Char)
  | [] => [[]]
  | c :: rest => (bankChoices rest).flatMap fun tail => [c :: tail, c.toUpper :: tail]

/-- The rows of a type with four bytes: leading fields, registers of either bank, and the rest. -/
def fieldRows (type leading : String) (registers : List Char) (trailing : String) : List Row :=
  (bankChoices registers).map fun letters =>
    .fields type (if letters.all Char.isLower then .i else .f)
      (leading ++ String.ofList ([','].intercalate (letters.map ([·]))) ++ trailing) 4

/-- The rows of the types with two bytes. -/
def compressedFieldRows : List Row :=
  [.fields "cr" .c "O2,CF4,d,CV" 2,
    .fields "cr" .fc "O2,CF4,D,CV" 2,
    .fields "cr" .fc "O2,CF4,d,CT" 2,
    .fields "cr" .fc "O2,CF4,D,CT" 2,
    .fields "ci" .c "O2,CF3,d,Co" 2,
    .fields "ci" .fc "O2,CF3,D,Co" 2,
    .fields "ciw" .c "O2,CF3,Ct,C8" 2,
    .fields "ciw" .fc "O2,CF3,CD,C8" 2,
    .fields "cb" .c "O2,CF3,Cs,Cp" 2,
    .fields "cb" .fc "O2,CF3,CS,Cp" 2,
    .fields "cj" .c "O2,CF3,Ca" 2]

/-- The instructions given field by field. -/
def fieldTypeRows : List Row :=
  List.flatten
    [fieldRows "r" "O4,F3,F7," ['d', 's', 't'] "",
      fieldRows "r" "O4,F3,F2," ['d', 's', 't', 'r'] "",
      fieldRows "r4" "O4,F3,F2," ['d', 's', 't', 'r'] "",
      fieldRows "i" "O4,F3," ['d', 's'] ",j",
      fieldRows "i" "O4,F3," ['d'] ",o(s)",
      fieldRows "s" "O4,F3," ['t'] ",q(s)",
      fieldRows "sb" "O4,F3," ['s', 't'] ",p",
      fieldRows "b" "O4,F3," ['s', 't'] ",p",
      fieldRows "u" "O4," ['d'] ",u",
      fieldRows "uj" "O4," ['d'] ",a",
      fieldRows "j" "O4," ['d'] ",a",
      compressedFieldRows]

end RiscvAssembler.Table
