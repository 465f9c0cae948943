import RiscvAssembler.Session.Labels

/-!
Source text. A block is split into statements at line ends and semicolons, with a comment from `#`
to the end of the line; a statement is some labels followed by a directive or an instruction.
-/

namespace RiscvAssembler

/-- A directive or instruction. -/
inductive Statement where
  | nothing
  | option (name : String)
  /-- An instruction given field by field. -/
  | fields (text : List Char)
  | setAttribute (arguments : List Char)
  | unknownDirective (name : String)
  | instruction (mnemonic : String) (operands : List Char)
deriving DecidableEq, Repr

/-- Labels and what follows them. -/
structure Line where
  labels : List Label
  statement : Statement
deriving DecidableEq, Repr

/-- What an attribute asks for. -/
inductive Attribute where
  /-- The instruction set. -/
  | arch (text : List Char)
  /-- Nothing that concerns the assembler. -/
  | ignored
deriving DecidableEq, Repr

/-! ### Statements -/

namespace Statement

/-- The statement of a trimmed text. -/
def ofText (s : List Char) : Statement :=
  if s.isEmpty then .nothing
  else
    let (head, tail) := Text.firstWord s
    let name := String.ofList head
    if name = ".option" then .option (String.ofList (Text.trim tail))
    else if name = ".insn" then .fields tail
    else if name = ".attribute" then .setAttribute tail
    else if head.head? = some '.' then .unknownDirective name
    else .instruction name tail

/-- The statements of a block, trimmed, without empty ones. -/
def ofBlock (text : List Char) : List (List Char) :=
  let commands (line : List Char) : List (List Char) := (line.takeWhile (· != '#')).splitOn ';'
  (((text.splitOn '\n').flatMap commands).map Text.trim).filter (!·.isEmpty)

end Statement

/-! ### Lines -/

namespace Line

/-- The label at the front of a text, and what follows its colon. -/
def label? (s : List Char) : Option (Label × List Char) :=
  match Text.splitFirst? ':' s with
  | none => none
  | some (before, after) =>
    (Label.read? (Text.trimEnd before)).map fun label => (label, Text.trimStart after)

theorem length_of_label? {s rest : List Char} {label : Label}
    (h : label? s = some (label, rest)) : rest.length < s.length := by
  unfold label? at h
  split at h
  · cases h
  · rename_i before after hs
    obtain ⟨l, _, he⟩ := Option.map_eq_some_iff.1 h
    cases he
    exact Nat.lt_of_le_of_lt (Text.length_trimStart_le after) (Text.length_of_splitFirst? hs)

/-- The labels at the front of a text, and the rest. -/
def splitLabels (s : List Char) : List Label × List Char :=
  match h : label? s with
  | none => ([], s)
  | some (label, rest) =>
    have : rest.length < s.length := length_of_label? h
    let (more, rest) := splitLabels rest
    (label :: more, rest)
termination_by s.length

/-- The line that a text spells. -/
def read (s : List Char) : Line :=
  let (labels, rest) := splitLabels (Text.trim s)
  ⟨labels, .ofText rest⟩

end Line

/-! ### Attributes -/

namespace Attribute

/-- Tags that are accepted and have no effect. -/
def ignoredTags : List String :=
  ["priv_spec", "priv_spec_minor", "priv_spec_revision", "unaligned_access", "stack_align"]

/-- The text between quotes. -/
def quoted? : List Char → Option (List Char)
  | '"' :: rest => if rest.getLast? = some '"' then some rest.dropLast else none
  | _ => none

/-- The attribute of a tag and a value. Tags may be numbers. -/
def ofTag (tag value : List Char) : Except Malformation Attribute :=
  let name := (Text.after? "Tag_RISCV_".toList tag).getD tag
  if String.ofList name ∈ ["arch", "5"] then
    match quoted? value with
    | some text => .ok (.arch text)
    | none => .error (.attributeNotQuoted (String.ofList value))
  else if String.ofList name ∈ ignoredTags ∨ name.all Char.isDigit then .ok .ignored
  else .error (.unknownAttribute (String.ofList tag))

/-- The attribute that the arguments of a directive spell. -/
def read (arguments : List Char) : Except Malformation Attribute :=
  match Text.splitFirst? ',' arguments with
  | none => .error (.attributeWithoutValue (String.ofList (Text.trim arguments)))
  | some (tag, value) => ofTag (Text.trim tag) (Text.trim value)

end Attribute

end RiscvAssembler
