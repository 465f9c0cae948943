import RiscvAssembler.Proofs.Encoding.Printed
import RiscvAssembler.Pseudo.Expansion

/-!
The forms of expansions. The steps of a pseudo-instruction load a constant, take an address in two
parts, or make a call (`PseudoKind.Forms`). The low part of an address goes into an addition, into a
load of an address, or into the access that the pseudo-instruction is named for
(`PseudoKind.LowPart`). All that is known of steps is shown form by form, and only
`PseudoKind.forms_of_steps` looks at how they are listed.
-/

namespace RiscvAssembler

/-! ### The parts of an address -/

/-- The relocations of the low part of an address that is relative to a label. -/
def RelocType.isLowPart : RelocType → Bool
  | .pcrelLo12I | .pcrelLo12S => true
  | _ => false

/-- The relocations of the upper part of an address in two parts. -/
def RelocType.isUpperPart : RelocType → Bool
  | .pcrelHi20 | .gotHi20 | .tlsGdHi20 | .tlsGotHi20 => true
  | _ => false

theorem RelocType.ofReloc?_of_isLowPart {kind : RelocType} (h : kind.isLowPart = true) :
    BranchKind.ofReloc? kind = .none := by
  cases kind with
  | pcrelLo12I | pcrelLo12S => rfl
  | _ => cases h

theorem RelocType.ofReloc?_of_isUpperPart {kind : RelocType} (h : kind.isUpperPart = true) :
    BranchKind.ofReloc? kind = .none := by
  cases kind with
  | pcrelHi20 | gotHi20 | tlsGdHi20 | tlsGotHi20 => rfl
  | _ => cases h

theorem RelocType.isLowPart_of_isUpperPart {kind : RelocType} (h : kind.isUpperPart = true) :
    kind.isLowPart = false := by
  cases kind with
  | pcrelHi20 | gotHi20 | tlsGdHi20 | tlsGotHi20 => rfl
  | _ => cases h

/-! ### What an expansion takes from its instruction -/

/-- The register in a field of an encoded instruction. -/
def Encoded.register (e : Encoded) (f : Field) : Nat :=
  (f.extract e.bits).toNat

/-- Whether an expansion may have a constant. -/
def PseudoKind.takesConstant : PseudoKind → Bool
  | .li | .la | .lla => true
  | _ => false

namespace Template

/-- The registers that a store is from. -/
def sourceBank (t : Template) : Bank :=
  if t.mnemonic.toList.head? = some 'f' then .float else .integer

theorem print_sourceBank (t : Template) (n : Nat) :
    (if t.mnemonic.toList.head? = some 'f' then Expansion.float n else Expansion.integer n) =
      t.sourceBank.print n := by
  unfold sourceBank
  split
  · rfl
  · rfl

/-- The fields that an expansion takes integer registers from. -/
def integerFields (t : Template) : PseudoKind → List Field
  | .floatLoad => [.rs1]
  | .store => if t.sourceBank = .float then [.rs1] else [.rs1, .rs2]
  | .call => [.rd, .rs1]
  | _ => [.rd]

theorem rd_mem_integerFields (t : Template) {kind : PseudoKind} (h : kind.takesConstant = true) :
    .rd ∈ t.integerFields kind := by
  cases kind with
  | li | la | lla => exact List.mem_cons_self
  | _ => cases h

theorem rs1_mem_integerFields_store (t : Template) : .rs1 ∈ t.integerFields .store := by
  simp only [integerFields]
  split
  · exact List.mem_cons_self
  · exact List.mem_cons_self

end Template

/-! ### Forms -/

section

open Expansion

variable {e : Encoded} {xlen : Xlen} {kind : PseudoKind} {imm : Expr} {pic : Bool}
  {next next' : Nat} {steps : List Step}

/-- What the low part of an address goes into, once the upper part is in `base`. -/
inductive PseudoKind.LowPart (e : Encoded) (xlen : Xlen) :
    PseudoKind → (base : Nat) → (low : RelocType) → (mnemonic : String) →
      (operands : List Char) → Prop where
  | sum {kind : PseudoKind} (names : .rd ∈ e.template.integerFields kind) :
    LowPart e xlen kind (e.register .rd) .pcrelLo12I "addi"
      (sumWithZero (e.register .rd) (e.register .rd))
  | address {kind : PseudoKind} (names : .rd ∈ e.template.integerFields kind) :
    LowPart e xlen kind (e.register .rd) .pcrelLo12I (loadAddress xlen)
      (access (integer (e.register .rd)) (e.register .rd))
  | load :
    LowPart e xlen .load (e.register .rd) .pcrelLo12I e.template.mnemonic
      (access (integer (e.register .rd)) (e.register .rd))
  | floatLoad :
    LowPart e xlen .floatLoad (e.register .rs1) .pcrelLo12I e.template.mnemonic
      (access (float (e.register .rd)) (e.register .rs1))
  | store :
    LowPart e xlen .store (e.register .rs1) .pcrelLo12S e.template.mnemonic
      (access (e.template.sourceBank.print (e.register .rs2)) (e.register .rs1))

theorem PseudoKind.LowPart.isLowPart {base : Nat} {low : RelocType} {mnemonic : String}
    {operands : List Char} (h : kind.LowPart e xlen base low mnemonic operands) :
    low.isLowPart = true := by
  cases h with
  | sum | address | load | floatLoad | store => rfl

/-- What the steps of a pseudo-instruction with an immediate are, and the number of the next fresh
label after them. An address in two parts has a label of its own. -/
inductive PseudoKind.Forms (e : Encoded) (xlen : Xlen) (next : Nat) :
    PseudoKind → (imm : Expr) → List Step → (next' : Nat) → Prop where
  | constant {kind : PseudoKind} (takes : kind.takesConstant = true) (value : Int64) :
    Forms e xlen next kind (.constant value)
      ((loadConstant xlen (e.register .rd) value).map .ofConstant) next
  | parts {kind : PseudoKind} {imm : Expr} {base : Nat} {upper low : RelocType} {mnemonic : String}
    {operands : List Char} (symbolic : kind.takesConstant = true → ∀ value, imm ≠ .constant value)
    (high : upper.isUpperPart = true)
    (takesLow : kind.LowPart e xlen base low mnemonic operands) :
    Forms e xlen next kind imm
      (throughUpper (upperLabel next) base imm upper low mnemonic operands) (next + 1)
  | call (imm : Expr) :
    Forms e xlen next .call imm
      [.insn "auipc" (withZero (e.register .rs1)) (some (e.reloc.getD .call, imm)),
        .insn "jalr" (integer (e.register .rd) ++ ", ".toList ++ integer (e.register .rs1)) none]
      next

/-- **Every expansion has one of the forms.** -/
theorem PseudoKind.forms_of_steps (h : kind.steps e imm xlen pic next = .ok (steps, next')) :
    kind.Forms e xlen next imm steps next' := by
  cases kind with
  | li =>
    cases imm with
    | constant value =>
      cases h
      exact .constant rfl value
    | symbol name addend => cases h
    | register name => cases h
  | la | lla =>
    dsimp only [PseudoKind.steps] at h
    split at h
    · split at h
      · cases h
        exact .constant rfl _
      · rename_i hsymbolic
        split at h
        · cases h
          exact .parts (fun _ => hsymbolic) rfl (.address List.mem_cons_self)
        · cases h
          exact .parts (fun _ => hsymbolic) rfl (.sum List.mem_cons_self)
    · cases h
  | laTlsGd =>
    cases h
    exact .parts (fun h => by cases h) rfl (.sum List.mem_cons_self)
  | laTlsIe =>
    cases h
    exact .parts (fun h => by cases h) rfl (.address List.mem_cons_self)
  | load =>
    cases h
    exact .parts (fun h => by cases h) rfl .load
  | floatLoad =>
    cases h
    exact .parts (fun h => by cases h) rfl .floatLoad
  | store =>
    cases h
    rw [e.template.print_sourceBank]
    exact .parts (fun h => by cases h) rfl .store
  | call =>
    cases h
    exact .call imm

theorem PseudoKind.steps_of_expand (h : kind.expand e xlen pic next = .ok (steps, next')) :
    ∃ imm, e.imm = some imm ∧ kind.steps e imm xlen pic next = .ok (steps, next') := by
  unfold PseudoKind.expand at h
  split at h
  · cases h
  · rename_i imm himm
    exact ⟨imm, himm, h⟩

theorem PseudoKind.forms_of_expand (h : kind.expand e xlen pic next = .ok (steps, next')) :
    ∃ imm, e.imm = some imm ∧ kind.Forms e xlen next imm steps next' := by
  obtain ⟨imm, himm, hsteps⟩ := steps_of_expand h
  exact ⟨imm, himm, forms_of_steps hsteps⟩

theorem PseudoKind.Forms.next_le (h : kind.Forms e xlen next imm steps next') : next ≤ next' := by
  cases h with
  | constant | call => exact Nat.le_refl next
  | parts => exact Nat.le_succ next

end

end RiscvAssembler
