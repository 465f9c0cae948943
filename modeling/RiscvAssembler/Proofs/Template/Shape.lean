import Mathlib.Algebra.Order.Ring.Int
import RiscvAssembler.Branch.Basic
import RiscvAssembler.Proofs.Template.Standard

/-!
What all templates of the tables have in common, checked over the tables once (`regular_of_mem`):
the fixed bits announce the length, no operand has a say in it, at most one operand leaves an
expression for later, and a compressed branch has a counterpart of 32 bits.
-/

namespace RiscvAssembler

/-- The bits that tell the length of the instruction that a word starts. -/
def lengthBits (word : Word) : Word :=
  if word &&& 0b11 ≠ 0b11 then 0b11 else 0x7f

/-- The bits that tell a compressed branch or jump. -/
def shortBranchBits : Word := 0xe003

namespace Operand

/-- Whether an operand may leave an expression for later. -/
def isDeferred : Operand → Bool
  | .imm12 _ | .tprelAdd | .upper | .target _ | .call | .constant | .symbol | .address => true
  | _ => false

/-- Whether an operand may leave a constant for later. -/
def leavesConstant : Operand → Bool
  | .constant | .address => true
  | _ => false

theorem isDeferred_of_leavesConstant {op : Operand} (h : op.leavesConstant = true) :
    op.isDeferred = true := by
  cases op with
  | constant | address => rfl
  | _ => cases h

end Operand

namespace Template

/-- Whether the fixed bits of a template announce its length and leave no operand a say in it. -/
def announcesLength (t : Template) : Bool :=
  instructionLength t.matchBits == t.length &&
    operandBits t.operands &&& lengthBits t.matchBits == 0 &&
    (t.isPseudo || t.matchBits.toNat < 2 ^ (8 * t.length))

/-- Whether at most one operand leaves an expression for later. -/
def defersOnce (t : Template) : Bool :=
  t.operands.countP Operand.isDeferred ≤ 1

/-- Whether the fixed bits of a compressed branch are those of one with a form of 32 bits. -/
def hasWideForm (t : Template) : Bool :=
  t.operands.all fun
    | .target k =>
      !k.isShort || (t.maskBits &&& shortBranchBits == shortBranchBits &&
        (BranchWord.expand t.matchBits).isOk)
    | _ => true

/-- What is checked of every template. -/
structure Regular (t : Template) : Prop where
  announcesLength : t.announcesLength = true
  defersOnce : t.defersOnce = true
  hasWideForm : t.hasWideForm = true

theorem regular_of_mem {t : Template} (h : t ∈ standardTemplates) : t.Regular := by
  have ht := of_mem_standardTemplates
    (fun t => t.announcesLength && t.defersOnce && t.hasWideForm) (by decide +kernel) h
  simp only [Bool.and_eq_true] at ht
  exact ⟨ht.1.1, ht.1.2, ht.2⟩

theorem defersOnce_of_mem_fieldTypes {t : Template}
    (h : t ∈ Table.fieldTypeRows.map Row.asTemplate) : t.defersOnce = true :=
  of_mem_fieldTypes defersOnce (by decide +kernel) h

end Template

end RiscvAssembler
