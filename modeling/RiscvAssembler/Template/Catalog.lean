import RiscvAssembler.Template.Table.Atomic
import RiscvAssembler.Template.Table.Compressed
import RiscvAssembler.Template.Table.Fields
import RiscvAssembler.Template.Table.Float
import RiscvAssembler.Template.Table.Integer
import RiscvAssembler.Template.Table.Multiply
import RiscvAssembler.Template.Table.System
import Std.Data.TreeMap

/-!
Catalogs of templates, indexed by mnemonic. A catalog is built row by row; building fails at a row
that spells no template, at a template whose bits are inconsistent, and at a mnemonic whose rows
do not stand together. Looking up a mnemonic gives its templates in table order.
-/

namespace RiscvAssembler

/-- Templates in table order, and for each mnemonic where its templates begin and end. -/
structure Catalog where
  templates : List Template
  ranges : Std.TreeMap String (Nat × Nat)

namespace Catalog

/-- The template of a row, if its bits are consistent. -/
def template (row : Row) : Except Defect Template := do
  let t ← row.toTemplate
  t.validate row.length
  return t

/-- The range of a mnemonic, so far `range`, with template number `next` in it. -/
def extendRange (mnemonic : String) (next : Nat) (range : Option (Nat × Nat)) :
    Except Defect (Nat × Nat) :=
  match range with
  | none => .ok (next, next + 1)
  | some (start, stop) =>
    if stop = next then .ok (start, next + 1)
    else .error (.impossible (.scatteredTemplates mnemonic))

/-- The catalog of rows that follow `next` others with the given ranges. -/
def buildFrom : (next : Nat) → Std.TreeMap String (Nat × Nat) → List Row → Except Defect Catalog
  | _, ranges, [] => .ok ⟨[], ranges⟩
  | next, ranges, row :: rows => do
    let t ← template row
    let range ← extendRange row.mnemonic next ranges[row.mnemonic]?
    let c ← buildFrom (next + 1) (ranges.insert row.mnemonic range) rows
    return { c with templates := t :: c.templates }

/-- The catalog of a list of rows. -/
def build (rows : List Row) : Except Defect Catalog :=
  buildFrom 0 ∅ rows

/-- The templates of a mnemonic, in table order. -/
def lookup (c : Catalog) (mnemonic : String) : List Template :=
  match c.ranges[mnemonic]? with
  | none => []
  | some (start, stop) => (c.templates.drop start).take (stop - start)

end Catalog

/-- The catalogs of the assembler. -/
structure Catalogs where
  /-- Instructions and pseudo-instructions, by mnemonic. -/
  instructions : Catalog
  /-- Instructions given field by field, by type. -/
  fieldTypes : Catalog

/-- The rows of all instructions. -/
def instructionRows : List Row :=
  [Table.integerRows, Table.atomicRows, Table.multiplyRows, Table.floatRows,
    Table.compressedRows, Table.csrRows, Table.privilegedRows].flatten

/-- The catalogs of the instruction set. -/
def Catalogs.standard : Except Defect Catalogs := do
  let instructions ← Catalog.build instructionRows
  let fieldTypes ← Catalog.build Table.fieldTypeRows
  return ⟨instructions, fieldTypes⟩

end RiscvAssembler
